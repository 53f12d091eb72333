import Mathlib.Data.Nat.Bitwise
import Sui.Library.Checked

/-!
# ULEB128 numbers of a Move binary

`write_u64_as_uleb128` and `read_uleb128_as_u64` of `move-binary-format/src/file_format_common.rs`. A `u64` is a natural number,
and what a left shift drops is written as a remainder by `2 ^ 64`.
-/

namespace Sui.Uleb128

open Library Checked

/-- The errors of the writer and of the reader. -/
inductive Error where
  | binarySize
  | invalidRepr
deriving DecidableEq, Repr

/-- `BinaryData::push`: the length of the binary stays a `usize`. -/
def push (binary : List UInt8) (item : UInt8) : Except Error (List UInt8) :=
  if binary.length + 1 < 2 ^ 64 then .ok (binary ++ [item]) else .error .binarySize

def writeU64AsUleb128 (binary : List UInt8) (val : ℕ) : Except Error (List UInt8) := do
  let cur := val &&& 0x7f
  if cur ≠ val then
    let binary ← push binary (.ofNat (cur ||| 0x80))
    writeU64AsUleb128 binary (val >>> 7)
  else
    push binary (.ofNat cur)
termination_by val
decreasing_by
  have : val ≠ 0 := by rintro rfl; contradiction
  rw [Nat.shiftRight_eq_div_pow]
  omega

/-- The loop of `read_uleb128_as_u64`, from the bytes read so far. -/
def readLoop (value shift : ℕ) : List UInt8 → Except Error (ℕ × List UInt8)
  | [] => .error .invalidRepr
  | byte :: cursor =>
    let cur := byte.toNat &&& 0x7f
    if (cur <<< shift % 2 ^ 64) >>> shift ≠ cur then .error .invalidRepr
    else
      let value := value ||| cur <<< shift % 2 ^ 64
      if byte.toNat &&& 0x80 = 0 then
        if 0 < shift ∧ cur = 0 then .error .invalidRepr else .ok (value, cursor)
      else if 64 < shift + 7 then .error .invalidRepr
      else readLoop value (shift + 7) cursor

/-- `read_uleb128_as_u64`: the number and the bytes after it. -/
def readUleb128AsU64 (cursor : List UInt8) : Except Error (ℕ × List UInt8) :=
  readLoop 0 0 cursor

/-- The canonical form of a number: seven bits a byte from the lowest on, with the top bit on all bytes but the last, which is
zero only when it is the first. -/
inductive Canonical : ℕ → List UInt8 → Prop
  | last {b : UInt8} {v : ℕ} (hb : b.toNat = v) (hv : v < 128) : Canonical v [b]
  | more {b : UInt8} {v w : ℕ} {bytes : List UInt8} (hb : 128 ≤ b.toNat) (hw : w = b.toNat % 128 + 128 * v) (hv : 0 < v)
      (h : Canonical v bytes) : Canonical w (b :: bytes)

variable {v : ℕ} {bytes bytes' : List UInt8}

theorem Canonical.bytes_unique (h : Canonical v bytes) (h' : Canonical v bytes') : bytes = bytes' := by
  induction h generalizing bytes' with
  | last hb =>
    cases h' with
    | last hb' => rw [UInt8.toNat_inj.mp (hb.trans hb'.symm)]
    | more => omega
  | @more b v w bytes hb hw hv h ih =>
    cases h' with
    | last => omega
    | @more b' v' _ bytes' hb' hw' hv' h' =>
      have hlt := b.toNat_lt
      have hlt' := b'.toNat_lt
      obtain rfl : v = v' := by omega
      obtain rfl : b = b' := UInt8.toNat_inj.mp (by omega)
      rw [ih h']

theorem Canonical.length_le (h : Canonical v bytes) {n : ℕ} (hn : v < 128 ^ (n + 1)) : bytes.length ≤ n + 1 := by
  induction h generalizing n with
  | last => simp
  | more _ _ _ _ ih =>
    cases n with
    | zero => omega
    | succ =>
      rw [pow_succ] at hn
      exact Nat.succ_le_succ (ih (by omega))

theorem toNat_byte {n : ℕ} (h : n < 256) : (UInt8.ofNat n).toNat = n := by
  rw [UInt8.toNat_ofNat', Nat.mod_eq_of_lt h]

theorem and_low (n : ℕ) : n &&& 0x7f = n % 128 :=
  Nat.and_two_pow_sub_one_eq_mod n 7

/-- The writer appends the canonical form. -/
theorem writeU64AsUleb128_canonical (v : ℕ) : ∃ bytes, Canonical v bytes ∧ ∀ binary, writeU64AsUleb128 binary v =
    if binary.length + bytes.length < 2 ^ 64 then .ok (binary ++ bytes) else .error .binarySize := by
  induction v using Nat.strong_induction_on with
  | _ v ih =>
    by_cases hv : v < 128
    · refine ⟨[.ofNat v], .last (toNat_byte (by omega)) hv, fun binary => ?_⟩
      rw [writeU64AsUleb128, and_low, Nat.mod_eq_of_lt hv, if_neg (by simp)]
      rfl
    · obtain ⟨bytes, hc, hw⟩ := ih (v / 128) (by omega)
      have hor : v % 128 ||| 0x80 = 128 + v % 128 :=
        (Nat.lor_comm ..).trans (Nat.two_pow_add_eq_or_of_lt (i := 7) (by omega) 1).symm
      have hb := toNat_byte (n := 128 + v % 128) (by omega)
      refine ⟨.ofNat (128 + v % 128) :: bytes, .more (by omega) (by omega) (by omega) hc, fun binary => ?_⟩
      rw [writeU64AsUleb128, and_low, if_pos (by omega), hor, push, Nat.shiftRight_eq_div_pow, List.length_cons]
      by_cases hroom : binary.length + 1 < 2 ^ 64
      · rw [if_pos hroom, ok_bind, hw, List.append_assoc, List.length_append, Nat.add_assoc, Nat.add_comm bytes.length]
        rfl
      · rw [if_neg hroom, if_neg (by omega)]
        rfl

section Pass

variable {value shift : ℕ} (hs : shift ≤ 64) (hvalue : value < 2 ^ shift)

include hs in
theorem shift_fits {cur : ℕ} : (cur <<< shift % 2 ^ 64) >>> shift = cur ↔ cur < 2 ^ (64 - shift) := by
  rw [← Nat.add_sub_of_le hs, pow_add, Nat.shiftLeft_eq, Nat.shiftRight_eq_div_pow, Nat.mul_comm cur, Nat.mul_mod_mul_left,
    Nat.mul_div_cancel_left _ (by positivity), Nat.add_sub_cancel_left]
  exact ⟨fun h => h ▸ Nat.mod_lt _ (by positivity), Nat.mod_eq_of_lt⟩

include hs hvalue in
theorem or_shifted {cur : ℕ} (hcur : cur < 2 ^ (64 - shift)) : value ||| cur <<< shift % 2 ^ 64 = value + 2 ^ shift * cur := by
  have hlt : 2 ^ shift * cur < 2 ^ 64 := by
    rw [← Nat.add_sub_of_le hs, pow_add]
    exact Nat.mul_lt_mul_of_pos_left hcur (by positivity)
  rw [Nat.shiftLeft_eq, Nat.mul_comm cur, Nat.mod_eq_of_lt hlt, Nat.lor_comm, Nat.add_comm, Nat.two_pow_add_eq_or_of_lt hvalue]

theorem and_high (b : UInt8) : b.toNat &&& 0x80 = 0 ↔ b.toNat < 128 :=
  (by decide +kernel : ∀ n : Fin 256, n.val &&& 0x80 = 0 ↔ n.val < 128) ⟨b.toNat, b.toNat_lt⟩

include hs hvalue in
/-- The loop accepts the canonical forms whose number fits above the bits already read. -/
theorem readLoop_ok_iff {cursor rest : List UInt8} {r : ℕ} :
    readLoop value shift cursor = .ok (r, rest) ↔ ∃ v bytes, Canonical v bytes ∧ cursor = bytes ++ rest ∧
      v < 2 ^ (64 - shift) ∧ (shift = 0 ∨ 0 < v) ∧ r = value + 2 ^ shift * v := by
  induction cursor generalizing value shift with
  | nil =>
    refine ⟨fun h => (by cases h), ?_⟩
    rintro ⟨v, bytes, hc, hnil, -⟩
    cases hc <;> cases hnil
  | cons byte _ ih =>
    simp only [readLoop, and_low, ne_eq, shift_fits hs, and_high]
    have hpow : 2 ^ (shift + 7) = 2 ^ shift * 128 := pow_add 2 shift 7
    have hlow : 2 ^ shift * (byte.toNat % 128) + 2 ^ shift ≤ 2 ^ shift * 128 := by
      rw [← Nat.mul_succ]
      exact Nat.mul_le_mul_left _ (Nat.mod_lt _ (by omega))
    constructor
    · intro h
      split_ifs at h with hfits hlast hzero hlong
      · obtain ⟨rfl, rfl⟩ := Prod.mk.inj (Except.ok.inj h)
        rw [or_shifted hs hvalue hfits]
        rw [Nat.mod_eq_of_lt hlast] at hfits hzero ⊢
        exact ⟨byte.toNat, [byte], .last rfl hlast, rfl, hfits, by omega, rfl⟩
      · rw [or_shifted hs hvalue hfits, ih (by omega) (by omega)] at h
        obtain ⟨v, bytes, hc, rfl, hv, hpos, rfl⟩ := h
        refine ⟨byte.toNat % 128 + 128 * v, byte :: bytes, .more (by omega) rfl (by omega) hc, rfl, ?_, by omega, ?_⟩
        · rw [show 64 - shift = 64 - (shift + 7) + 7 by omega, pow_add]
          omega
        · rw [hpow]
          ring
    · rintro ⟨v, bytes, hc, hcur, hfits, hpos, rfl⟩
      cases hc with
      | last hb hv =>
        cases hcur
        subst hb
        rw [Nat.mod_eq_of_lt hv, if_neg (not_not.mpr hfits), if_pos hv, if_neg (by omega), or_shifted hs hvalue hfits]
        rfl
      | @more _ v' _ _ hb hw hv hc =>
        cases hcur
        have hshort : ¬64 < shift + 7 := by
          intro hlong
          have := Nat.pow_le_pow_right (by decide : 0 < 2) (by omega : 64 - shift ≤ 7)
          omega
        have hcur : byte.toNat % 128 < 2 ^ (64 - shift) := by omega
        rw [if_neg (not_not.mpr hcur), if_neg (by omega), if_neg hshort, or_shifted hs hvalue hcur, ih (by omega) (by omega)]
        refine ⟨v', _, hc, rfl, ?_, .inr hv, ?_⟩
        · rw [show 64 - shift = 64 - (shift + 7) + 7 by omega, pow_add] at hfits
          omega
        · rw [hpow, hw]
          ring

end Pass

/-- ULEB128 is canonical: the reader returns only `u64` values, and each has one form of at most ten bytes, which is what the
writer appends and the only one that the reader takes. -/
theorem readUleb128AsU64_iff_written (v : ℕ) : (∀ input rest, readUleb128AsU64 input = .ok (v, rest) → v < 2 ^ 64) ∧
    (v < 2 ^ 64 → ∃ bytes, bytes.length ≤ 10 ∧ (∀ binary, writeU64AsUleb128 binary v =
        if binary.length + bytes.length < 2 ^ 64 then .ok (binary ++ bytes) else .error .binarySize) ∧
      ∀ input rest, readUleb128AsU64 input = .ok (v, rest) ↔ input = bytes ++ rest) := by
  have hread : ∀ input rest, readUleb128AsU64 input = .ok (v, rest) ↔
      ∃ bytes, Canonical v bytes ∧ input = bytes ++ rest ∧ v < 2 ^ 64 := by
    intro input rest
    rw [readUleb128AsU64, readLoop_ok_iff (Nat.zero_le _) (by decide)]
    constructor
    · rintro ⟨w, bytes, hc, hinput, hw, -, rfl⟩
      simpa using ⟨bytes, hc, hinput, hw⟩
    · rintro ⟨bytes, hc, hinput, hv⟩
      exact ⟨v, bytes, hc, hinput, hv, .inl rfl, by simp⟩
  refine ⟨fun input rest h => ?_, fun hv => ?_⟩
  · obtain ⟨_, _, _, hv⟩ := (hread input rest).mp h
    exact hv
  · obtain ⟨bytes, hc, hw⟩ := writeU64AsUleb128_canonical v
    refine ⟨bytes, hc.length_le (n := 9) (hv.trans (by decide)), hw, fun input rest => (hread input rest).trans ?_⟩
    constructor
    · rintro ⟨bytes', hc', rfl, -⟩
      rw [hc.bytes_unique hc']
    · intro h
      exact ⟨bytes, hc, h, hv⟩

end Sui.Uleb128
