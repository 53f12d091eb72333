import Sui.Execution.Accumulator
import Sui.Library.Word

/-!
# MultiSig

`types/sui/src/multisig.rs`, in a release build: the signatures and the set bits of the bitmap are paired by `zip_debug_eq`, which
stops at the end of the shorter list. Whether a signature of a member is valid is a parameter.
-/

namespace Sui.Multisig

open Library Checked List

/-- The variants of `CompressedSignature` and of `PublicKey`. -/
inductive Scheme where
  | ed25519
  | secp256k1
  | secp256r1
  | zkLogin
  | passkey
deriving DecidableEq, Repr

def Scheme.flag : Scheme → UInt8
  | .ed25519 => 0
  | .secp256k1 => 1
  | .secp256r1 => 2
  | .zkLogin => 5
  | .passkey => 6

structure PublicKey where
  scheme : Scheme
  bytes : List UInt8
deriving DecidableEq, Repr

structure CompressedSignature where
  scheme : Scheme
  bytes : List UInt8
deriving DecidableEq, Repr

structure MultiSigPublicKey where
  pkMap : List (PublicKey × UInt8)
  threshold : UInt16

structure MultiSig where
  sigs : List CompressedSignature
  bitmap : UInt16
  multisigPk : MultiSigPublicKey

/-- The fields of `VerifyParams` that the check reads itself. -/
structure VerifyParams where
  acceptZkloginInMultisig : Bool
  acceptPasskeyInMultisig : Bool
  additionalMultisigChecks : Bool
  validateZkloginPublicIdentifier : Bool

/-- What is left to the libraries: the hash of an address, the decoding of keys and signatures, and whether a signature is valid. -/
structure Verifier (Message : Type) where
  hash : List UInt8 → SuiAddress
  publicIdentifierOk : PublicKey → Bool
  pkBytesOk : Scheme → PublicKey → Bool
  sigBytesOk : CompressedSignature → Bool
  verify : CompressedSignature → PublicKey → Message → Bool

/-- The texts of `InvalidSignature`, and a sum of weights that overflows. -/
inductive Error where
  | invalidMultisigPubkey
  | invalidZkLoginPk (pk : PublicKey)
  | invalidAddress
  | zkLoginNotSupported
  | passkeyNotSupported
  | invalidBitmap
  | invalidPublicKeysIndex
  | typeMismatch (pk : PublicKey)
  | invalidPkBytes (scheme : Scheme)
  | invalidSignatureBytes (scheme : Scheme)
  | invalidSig (pk : PublicKey)
  | insufficientWeight (weight threshold : Nat)
  | overflow
deriving DecidableEq, Repr

/-- `MultiSigPublicKey::validate`. The weights are added only if there are at most ten of them. -/
def MultiSigPublicKey.validate (self : MultiSigPublicKey) : Bool :=
  !(self.threshold = 0 || self.pkMap.isEmpty || self.pkMap.length > 10 || self.pkMap.any (fun p => p.2 = 0) ||
    (self.pkMap.map fun p => p.2.toNat).sum < self.threshold.toNat || !(self.pkMap.map Prod.fst).Nodup)

def MultiSig.initAndValidate (self : MultiSig) : Bool :=
  !(self.sigs.length > self.multisigPk.pkMap.length || self.sigs.isEmpty || self.bitmap > 0b1111111111) && self.multisigPk.validate

def asIndices (bitmap : UInt16) : Except Error (List Nat) := do
  assert (bitmap ≤ 0b1111111111) .invalidBitmap
  return (List.range 10).filter bitmap.toNat.testBit

variable {Message : Type} (v : Verifier Message)

def addressOf (pk : MultiSigPublicKey) : SuiAddress :=
  v.hash ([3, (pk.threshold.toNat % 256).toUInt8, (pk.threshold.toNat / 256).toUInt8] ++
    pk.pkMap.flatMap fun p => [p.1.scheme.flag] ++ p.1.bytes ++ [p.2])

variable (params : VerifyParams) (message : Message)

/-- The check of one signature. The scheme of the key of a passkey is not compared. -/
def verifySignature (sig : CompressedSignature) (pk : PublicKey) : Except Error Unit := do
  assert (!params.additionalMultisigChecks || sig.scheme = .passkey || pk.scheme = sig.scheme) (.typeMismatch pk)
  assert (sig.scheme = .zkLogin || sig.scheme = .passkey || v.pkBytesOk sig.scheme pk) (.invalidPkBytes sig.scheme)
  assert (v.sigBytesOk sig) (.invalidSignatureBytes sig.scheme)
  assert (v.verify sig pk message) (.invalidSig pk)

/-- The body of the loop over the signatures and the indices. -/
def addSignature (pkMap : List (PublicKey × UInt8)) (weightSum : Nat) (x : CompressedSignature × Nat) : Except Error Nat := do
  let (pk, weight) ← expect pkMap[x.2]? .invalidPublicKeysIndex
  verifySignature v params message x.1 pk
  Word.add .overflow 16 weightSum weight.toNat

def verifyClaims (self : MultiSig) (address : SuiAddress) : Except Error Unit := do
  assert self.multisigPk.validate .invalidMultisigPubkey
  self.multisigPk.pkMap.forM fun p => assert (!params.validateZkloginPublicIdentifier || p.1.scheme ≠ .zkLogin ||
    v.publicIdentifierOk p.1) (.invalidZkLoginPk p.1)
  assert (addressOf v self.multisigPk = address) .invalidAddress
  let zkLoginSigs := self.sigs.filter (·.scheme = .zkLogin)
  zkLoginSigs.forM fun sig => assert (v.sigBytesOk sig) (.invalidSignatureBytes .zkLogin)
  assert (zkLoginSigs.isEmpty || params.acceptZkloginInMultisig) .zkLoginNotSupported
  assert (!self.sigs.any (·.scheme = .passkey) || params.acceptPasskeyInMultisig) .passkeyNotSupported
  let indices ← asIndices self.bitmap
  let weightSum ← (self.sigs.zip indices).foldlM (addSignature v params message self.multisigPk.pkMap) 0
  assert (self.multisigPk.threshold.toNat ≤ weightSum) (.insufficientWeight weightSum self.multisigPk.threshold.toNat)

/-! ## What an accepted MultiSig was checked for -/

def setBits (bitmap : UInt16) : List Nat := (List.range 16).filter bitmap.toNat.testBit

def weightAt (pkMap : List (PublicKey × UInt8)) (i : Nat) : Nat := (pkMap[i]?.map fun p => p.2.toNat).getD 0

/-- Every signature is valid under the key of its set bit, and the set bits select distinct members with the weight of the
threshold. -/
structure CheckedInFull (m : MultiSig) (address : SuiAddress) : Prop where
  count : m.sigs.length = (setBits m.bitmap).length
  valid : ∀ (j : Nat) sig i, m.sigs[j]? = some sig → (setBits m.bitmap)[j]? = some i →
    ∃ pk weight, m.multisigPk.pkMap[i]? = some (pk, weight) ∧ v.verify sig pk message = true
  members : ∀ i ∈ setBits m.bitmap, i < m.multisigPk.pkMap.length
  distinct : (setBits m.bitmap).Nodup ∧ (m.multisigPk.pkMap.map Prod.fst).Nodup
  weight : m.multisigPk.threshold.toNat ≤ ((setBits m.bitmap).map (weightAt m.multisigPk.pkMap)).sum
  noOverflow : ((setBits m.bitmap).map (weightAt m.multisigPk.pkMap)).sum < 2 ^ 16
  address_eq : addressOf v m.multisigPk = address

variable {v params message}

theorem asIndices_ok {bitmap : UInt16} {indices : List Nat} (h : asIndices bitmap = .ok indices) : indices = setBits bitmap := by
  simp only [asIndices, bind_ok, assert_ok, decide_eq_true_eq, pure_ok, exists_const] at h
  obtain ⟨hle, rfl⟩ := h
  have hlt : bitmap.toNat < 2 ^ 10 := Nat.lt_succ_of_le (UInt16.le_iff_toNat_le.mp hle)
  rw [setBits, show List.range 16 = List.range 10 ++ List.range' 10 6 from rfl, filter_append,
    filter_eq_nil_iff (l := range' 10 6) |>.mpr, append_nil]
  intro i hi
  rw [Nat.testBit_lt_two_pow (hlt.trans_le (Nat.pow_le_pow_right (by decide) (mem_range'_1.mp hi).1))]
  exact Bool.false_ne_true

/-- What the loop has checked. -/
theorem foldlM_addSignature {pkMap : List (PublicKey × UInt8)} {l : List (CompressedSignature × Nat)} {n : Nat}
    (h : l.foldlM (addSignature v params message pkMap) 0 = .ok n) :
    (∀ x ∈ l, ∃ pk weight, pkMap[x.2]? = some (pk, weight) ∧ v.verify x.1 pk message = true) ∧
      n = (l.map fun x => weightAt pkMap x.2).sum ∧ n < 2 ^ 16 := by
  refine foldlM_invariant (fun pre n => (∀ x ∈ pre, ∃ pk weight, pkMap[x.2]? = some (pk, weight) ∧ v.verify x.1 pk message = true) ∧
    n = (pre.map fun x => weightAt pkMap x.2).sum ∧ n < 2 ^ 16) h ⟨nofun, rfl, by decide⟩ ?_
  rintro pre x post n n' - ⟨hvalid, rfl, -⟩ hstep
  simp only [addSignature, verifySignature, bind_ok, expect_ok, assert_ok, Word.add_ok] at hstep
  obtain ⟨⟨pk, weight⟩, hpk, _, ⟨_, -, _, -, _, -, hverify⟩, hlt, rfl⟩ := hstep
  refine ⟨fun y hy => ?_, by simp [weightAt, hpk], hlt⟩
  rcases mem_concat.mp hy with hy | rfl
  · exact hvalid y hy
  · exact ⟨pk, weight, hpk, hverify⟩

/-- An accepted MultiSig is checked in full if and only if it carries as many signatures as its bitmap has set bits. -/
theorem checkedInFull_iff (m : MultiSig) (address : SuiAddress) (haccept : verifyClaims v params message m address = .ok ()) :
    CheckedInFull v message m address ↔ m.sigs.length = (setBits m.bitmap).length := by
  refine ⟨CheckedInFull.count, fun hcount => ?_⟩
  simp only [verifyClaims, bind_ok, assert_ok, decide_eq_true_eq] at haccept
  obtain ⟨_, hvalidate, _, -, _, haddress, _, -, _, -, _, -, indices, hindices, n, hloop, hweight⟩ := haccept
  obtain rfl := asIndices_ok hindices
  obtain ⟨hvalid, rfl, hlt⟩ := foldlM_addSignature hloop
  have hmap : ((m.sigs.zip (setBits m.bitmap)).map fun x => weightAt m.multisigPk.pkMap x.2).sum =
      ((setBits m.bitmap).map (weightAt m.multisigPk.pkMap)).sum := by
    conv_rhs => rw [← map_snd_zip hcount.ge, map_map]
    rfl
  rw [hmap] at hweight hlt
  have hget : ∀ (j : Nat) sig i, m.sigs[j]? = some sig → (setBits m.bitmap)[j]? = some i → _ := fun j sig i hsig hi =>
    hvalid (sig, i) (mem_of_getElem? (getElem?_zip_eq_some.mpr ⟨hsig, hi⟩))
  refine ⟨hcount, hget, ?_, ⟨nodup_range.filter _, ?_⟩, hweight, hlt, haddress⟩
  · intro i hi
    obtain ⟨j, hj, rfl⟩ := getElem_of_mem hi
    obtain ⟨pk, weight, hpk, -⟩ := hget j _ _ (getElem?_eq_getElem (hcount ▸ hj)) (getElem?_eq_getElem hj)
    exact (List.getElem?_eq_some_iff.mp hpk).1
  · simp only [MultiSigPublicKey.validate, Bool.not_eq_true', Bool.or_eq_false_iff, Bool.not_eq_false', decide_eq_true_eq] at hvalidate
    exact hvalidate.2

/-- A signature is valid under the key that has its bytes. -/
def matching : Verifier Unit := ⟨List.length, fun _ => true, fun _ _ => true, fun _ => true, fun sig pk _ => sig.bytes = pk.bytes⟩

/-- Members with the weights 1, 2 and 3 and the threshold 4, with signatures of the first and the last one. -/
def twoOfThree : MultiSig :=
  ⟨[⟨.ed25519, [1]⟩, ⟨.ed25519, [3]⟩], 0b101, ⟨[(⟨.ed25519, [1]⟩, 1), (⟨.ed25519, [2]⟩, 2), (⟨.ed25519, [3]⟩, 3)], 4⟩⟩

theorem checkedInFull_twoOfThree : CheckedInFull matching () twoOfThree 12 :=
  (@checkedInFull_iff Unit matching ⟨true, true, true, true⟩ () twoOfThree 12 (by decide)).mpr (by decide)

/-- Every signature decodes and is valid. -/
def lenient : Verifier Unit := ⟨List.length, fun _ => true, fun _ _ => true, fun _ => true, fun _ _ _ => true⟩

/-- A MultiSig of two members with weight 1 and threshold 1, with one signature. -/
def oneOfTwo (bitmap : UInt16) : MultiSig :=
  ⟨[⟨.ed25519, []⟩], bitmap, ⟨[(⟨.ed25519, [1]⟩, 1), (⟨.ed25519, [2]⟩, 1)], 1⟩⟩

/-- Both bits are set and there is one signature, of the first member: the second bit is never looked at. -/
theorem not_checkedInFull_extra_bit :
    (oneOfTwo 0b11).initAndValidate = true ∧ verifyClaims lenient ⟨true, true, true, true⟩ () (oneOfTwo 0b11) 9 = .ok () ∧
      ¬ CheckedInFull lenient () (oneOfTwo 0b11) 9 :=
  ⟨by decide, by decide, fun h => absurd h.count (by decide)⟩

end Sui.Multisig
