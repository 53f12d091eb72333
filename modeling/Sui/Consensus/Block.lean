import Sui.Library.Checked

/-!
# Blocks

`types/consensus/src/block.rs` and `consensus/src/block.rs`: references, slots and blocks. Rounds, timestamps, stakes, epochs
and commit indices are natural numbers, and so are authority indices and digests; a digest stands for 32 bytes compared in
lexicographic order.
-/

namespace Sui

open Library

abbrev AuthorityIndex := Nat

abbrev Digest := Nat

abbrev TransactionIndex := Nat

def genesisRound : Nat := 0

/-- `BlockRef`: identifies a block by its digest, and names its slot. -/
structure BlockRef where
  round : Nat
  author : AuthorityIndex
  digest : Digest
deriving DecidableEq, Repr

namespace BlockRef

/-- The fields in the order in which references are compared. -/
def key (r : BlockRef) : Nat ×ₗ Nat ×ₗ Nat := toLex (r.round, toLex (r.author, r.digest))

theorem key_injective : Function.Injective key := by
  rintro ⟨⟩ ⟨⟩ h
  simpa [key] using h

/-- References are ordered by round, then author, then digest. -/
instance : LinearOrder BlockRef := LinearOrder.lift' key key_injective

/-- A smaller reference is of a round that is not higher. -/
theorem round_le_of_le {a b : BlockRef} (h : a ≤ b) : a.round ≤ b.round := by
  have h' : key a ≤ key b := h
  rw [key, key, Prod.Lex.toLex_le_toLex] at h'
  rcases h' with h' | h'
  · exact Nat.le_of_lt h'
  · exact Nat.le_of_eq h'.1

/-- A reference of a lower round is smaller. -/
theorem lt_of_round_lt {a b : BlockRef} (h : a.round < b.round) : a < b := by
  by_contra hn
  have hle := round_le_of_le (not_lt.mp hn)
  omega

end BlockRef

/-- `Slot`: a position in the DAG, with no block, one block or several blocks of an authority that equivocates. -/
structure Slot where
  round : Nat
  authority : AuthorityIndex
deriving DecidableEq, Repr

/-- `Slot::from`: the slot of a reference. -/
def BlockRef.slot (r : BlockRef) : Slot := ⟨r.round, r.author⟩

@[simp] theorem BlockRef.slot_round (r : BlockRef) : r.slot.round = r.round := rfl

/-- A transaction: the bytes of it. -/
structure Transaction where
  data : List UInt8
deriving DecidableEq, Repr

/-- `BlockTransactionVotes`: explicit reject votes on the transactions of one block. -/
structure BlockTransactionVotes where
  blockRef : BlockRef
  rejects : List TransactionIndex
deriving DecidableEq, Repr

/-- `CommitRef`: identifies a commit by its index and its digest. -/
structure CommitRef where
  index : Nat
  digest : Digest
deriving DecidableEq, Repr

namespace CommitRef

/-- The fields in the order in which references are compared. -/
def key (r : CommitRef) : Nat ×ₗ Nat := toLex (r.index, r.digest)

theorem key_injective : Function.Injective key := by
  rintro ⟨⟩ ⟨⟩ h
  simpa [key] using h

instance : LinearOrder CommitRef := LinearOrder.lift' key key_injective

end CommitRef

/-- `Block`: the content of a block. `transactionVotes` is empty in the first version of the format. -/
structure Block where
  epoch : Nat
  round : Nat
  author : AuthorityIndex
  timestampMs : Nat
  ancestors : List BlockRef
  transactions : List Transaction
  transactionVotes : List BlockTransactionVotes
  commitVotes : List CommitRef
deriving DecidableEq, Repr

/-- `SignedBlock`: a block with its signature, before they are verified. -/
structure SignedBlock extends Block where
  signature : List UInt8
deriving DecidableEq, Repr

/-- `VerifiedBlock`: a signed block with its digest. -/
structure VerifiedBlock extends SignedBlock where
  digest : Digest
deriving DecidableEq, Repr

variable (b : VerifiedBlock)

def VerifiedBlock.reference : BlockRef := ⟨b.round, b.author, b.digest⟩

@[simp] theorem VerifiedBlock.reference_round : b.reference.round = b.round := rfl

@[simp] theorem VerifiedBlock.reference_author : b.reference.author = b.author := rfl

def VerifiedBlock.slot : Slot := ⟨b.round, b.author⟩

@[simp] theorem VerifiedBlock.slot_round : b.slot.round = b.round := rfl

@[simp] theorem VerifiedBlock.reference_slot : b.reference.slot = b.slot := rfl

end Sui
