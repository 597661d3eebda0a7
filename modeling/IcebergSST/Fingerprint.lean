import IcebergSST.Library.SelfDelimiting
import IcebergSST.Text
import Std.Data.String.ToNat

/-!
# The identity of a finding

A fingerprint is the keyed digest of the connector type, the resource, the part of it, the
rule and the secret's hash, each field normalised, encoded and written behind its length.
The normalisation of `unicodedata` and the digest of `hmac` are taken as they come. A string
is one that can be encoded: it holds no lone surrogate.
-/

namespace IcebergSST.Fingerprint

open Codeword

abbrev Bytes := List UInt8

def encode (s : String) : Bytes := s.toByteArray.data.toList

def fingerprintVersion : ℕ := 1

def fingerprintDomain : Bytes := encode ("iceberg.fingerprint.v" ++ toString fingerprintVersion)

def minPepperBytes : ℕ := 16

structure CoarseLocator where
  connectorType : String
  resourceId : String
  subResource : Option String := none
  connectorType_required : strip connectorType ≠ ""
  resourceId_required : strip resourceId ≠ ""

def CoarseLocator.canonicalParts (locator : CoarseLocator) : List String :=
  [locator.connectorType, locator.resourceId, locator.subResource.getD ""]

def requirePepper (pepper : Bytes) : Except String Unit :=
  if pepper.length < minPepperBytes then
    .error ("pepper must be at least " ++ toString minPepperBytes ++ " bytes, got " ++
      toString pepper.length ++ "; retrieve it with SecretStore.get_pepper()")
  else .ok ()

section

variable (normalize : String → String) (hmac : Bytes → Bytes → String)

def lengthPrefixed (item : Bytes) : Bytes :=
  encode (toString item.length ++ ":") ++ item ++ encode "|"

def canonicalize (parts : List String) : Bytes :=
  (parts.map fun part => encode (normalize part)).flatMap lengthPrefixed

def fingerprint (locator : CoarseLocator) (ruleId secretHash : String) (pepper : Bytes) :
    Except String String := do
  requirePepper pepper
  if strip ruleId = "" then throw "rule_id is required"
  if strip secretHash = "" then throw "secret_hash is required"
  let message := canonicalize normalize (locator.canonicalParts ++ [ruleId, secretHash])
  return hmac pepper (fingerprintDomain ++ [0] ++ message)

end

theorem encode_injective : Function.Injective encode := by
  intro s t h
  rw [encode, encode, Array.toList_inj] at h
  exact String.toByteArray_inj.1 (ByteArray.ext h)

theorem encode_append (s t : String) : encode (s ++ t) = encode s ++ encode t := by
  rw [encode, String.toByteArray_append, ByteArray.toList_data_append]
  rfl

theorem encode_eq_flatMap (s : String) : encode s = s.toList.flatMap String.utf8EncodeChar := by
  rw [encode, ← String.utf8Encode_toList, List.utf8Encode, List.toList_data_toByteArray]

theorem colon_not_mem_digit {c : Char} (h : c.isDigit) :
    (58 : UInt8) ∉ String.utf8EncodeChar c := by
  simp only [Char.isDigit, Bool.and_eq_true, decide_eq_true_eq, ge_iff_le,
    UInt32.le_iff_toNat_le] at h
  change 48 ≤ c.val.toNat ∧ c.val.toNat ≤ 57 at h
  have hsize : c.utf8Size = 1 := by
    rw [Char.utf8Size_eq_one_iff, UInt32.le_iff_toNat_le]
    change c.val.toNat ≤ 127
    omega
  rw [String.utf8EncodeChar_eq_singleton hsize, List.mem_singleton]
  intro hbyte
  have hvalue := congrArg UInt8.toNat hbyte
  rw [UInt32.toNat_toUInt8] at hvalue
  change 58 = c.val.toNat % 2 ^ 8 at hvalue
  omega

theorem colon_not_mem_encode_toString (n : ℕ) : (58 : UInt8) ∉ encode (toString n) := by
  rw [encode_eq_flatMap, List.mem_flatMap]
  rintro ⟨c, hc, hbyte⟩
  rw [Nat.toString_eq_repr, Nat.toList_repr] at hc
  exact colon_not_mem_digit (Nat.isDigit_of_mem_toDigits (by decide) (by decide) hc) hbyte

/-- The decimal digits of the length end at the colon, and the length tells where the field
ends. -/
theorem lengthPrefixed_selfDelimiting : SelfDelimiting lengthPrefixed := by
  have hdigits : Function.Injective fun n : ℕ => encode (toString n) :=
    encode_injective.comp fun m n h => Nat.repr_injective h
  have hheader := of_stop hdigits colon_not_mem_encode_toString
  have hfield := (of_length hheader).append_tail (encode "|")
  have hcolon : encode ":" = [58] := by decide
  intro a b r s h
  refine hfield a b r s ?_
  simpa only [lengthPrefixed, encode_append, hcolon] using h

theorem lengthPrefixed_ne_nil (item : Bytes) : lengthPrefixed item ≠ [] := by
  intro h
  have hbar := (List.append_eq_nil_iff.1 h).2
  exact absurd hbar (by decide)

section

variable (normalize : String → String) (hmac : Bytes → Bytes → String)

theorem canonicalize_inj {parts parts' : List String} :
    canonicalize normalize parts = canonicalize normalize parts' ↔
      List.Forall₂ (fun part part' => normalize part = normalize part') parts parts' := by
  have hinj := flatMap_injective lengthPrefixed_selfDelimiting lengthPrefixed_ne_nil
  calc canonicalize normalize parts = canonicalize normalize parts'
      ↔ parts.map (fun part => encode (normalize part)) =
          parts'.map fun part => encode (normalize part) := hinj.eq_iff
    _ ↔ List.Forall₂ (fun part part' => encode (normalize part) = encode (normalize part'))
          parts parts' := by
        rw [← List.forall₂_eq_eq_eq, List.forall₂_map_left_iff, List.forall₂_map_right_iff]
    _ ↔ _ := by simp only [encode_injective.eq_iff]

/-- What a fingerprint that was given out is the digest of. -/
theorem eq_hmac_of_fingerprint {locator : CoarseLocator} {ruleId hash : String} {pepper : Bytes}
    {digest : String} (h : fingerprint normalize hmac locator ruleId hash pepper = .ok digest) :
    digest = hmac pepper (fingerprintDomain ++ [0] ++
      canonicalize normalize (locator.canonicalParts ++ [ruleId, hash])) := by
  rw [fingerprint] at h
  cases hpepper : requirePepper pepper with
  | error message => simp [hpepper, bind, Except.bind] at h
  | ok _ =>
      by_cases hrule : strip ruleId = ""
      · simp [hpepper, hrule, bind, Except.bind, throw, throwThe, MonadExceptOf.throw] at h
      by_cases hhash : strip hash = ""
      · simp [hpepper, hrule, hhash, bind, Except.bind, throw, throwThe, MonadExceptOf.throw] at h
      simp only [hpepper, hrule, hhash, if_false, bind, Except.bind, pure, Except.pure,
        Except.ok.injEq] at h
      exact h.symm

/-- The message is read back field by field, so no two findings share a digest that does not
collide unless their fields agree. -/
theorem fingerprint_identity :
    (∀ parts parts' : List String,
      canonicalize normalize parts = canonicalize normalize parts' ↔
        List.Forall₂ (fun part part' => normalize part = normalize part') parts parts') ∧
    ∀ pepper : Bytes, Function.Injective (hmac pepper) →
      ∀ (locator locator' : CoarseLocator) (ruleId ruleId' hash hash' digest : String),
        fingerprint normalize hmac locator ruleId hash pepper = .ok digest →
        fingerprint normalize hmac locator' ruleId' hash' pepper = .ok digest →
        normalize locator.connectorType = normalize locator'.connectorType ∧
        normalize locator.resourceId = normalize locator'.resourceId ∧
        normalize (locator.subResource.getD "") = normalize (locator'.subResource.getD "") ∧
        normalize ruleId = normalize ruleId' ∧ normalize hash = normalize hash' := by
  refine ⟨fun parts parts' => canonicalize_inj normalize, ?_⟩
  intro pepper hinj locator locator' ruleId ruleId' hash hash' digest h h'
  rw [eq_hmac_of_fingerprint normalize hmac h] at h'
  have hmessage := hinj (eq_hmac_of_fingerprint normalize hmac h')
  have hparts := (canonicalize_inj normalize).1 (List.append_cancel_left hmessage)
  simp only [CoarseLocator.canonicalParts, List.cons_append, List.nil_append,
    List.forall₂_cons, List.Forall₂.nil, and_true] at hparts
  exact hparts

/-- The digest of a message is the message: nothing collides. -/
def idealHmac (_pepper message : Bytes) : String :=
  String.ofList (message.map fun b => Char.ofNat b.toNat)

theorem idealHmac_injective (pepper : Bytes) : Function.Injective (idealHmac pepper) := by
  have hbyte : Function.Injective fun b : UInt8 => Char.ofNat b.toNat := by
    intro b b' h
    have hvalid (b : UInt8) : (Char.ofNat b.toNat).toNat = b.toNat := by
      have hlt := b.toNat_lt
      rw [Char.ofNat, dif_pos (Or.inl (by omega) : b.toNat.isValidChar)]
      rfl
    have hnat := congrArg Char.toNat h
    simp only [hvalid] at hnat
    exact UInt8.toNat_inj.1 hnat
  intro m m' h
  exact List.map_injective_iff.2 hbyte (String.ofList_injective h)

def composeAcute (s : String) : String := if s = "Cafe\u0301" then "Café" else s

def composed : CoarseLocator where
  connectorType := "confluence"
  resourceId := "Café"
  connectorType_required := by decide
  resourceId_required := by decide

def decomposed : CoarseLocator where
  connectorType := "confluence"
  resourceId := "Cafe\u0301"
  subResource := some ""
  connectorType_required := by decide
  resourceId_required := by decide

/-- One page whose title one client wrote composed and another decomposed. -/
theorem decomposed_title_identity :
    composeAcute "Café" = composeAcute "Cafe\u0301" :=
  ((fingerprint_identity composeAcute idealHmac).2 (List.replicate 16 7)
    (idealHmac_injective _) composed decomposed "aws-key" "aws-key" "ab" "ab" _ rfl rfl).2.1

end

end IcebergSST.Fingerprint
