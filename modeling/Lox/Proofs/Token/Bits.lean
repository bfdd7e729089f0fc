import Lox.Token.KindSet

/-!
# Sets of kinds in a word

A word has a bit for each kind, at the index of the kind.

* `Kind.index_lt`, `Kind.index_inj`: every kind has a bit, and none has that of another;
* `KindBits`, `KindBits.insert`, `KindBits.contains`: the bits that are set (`contains_eq_getLsbD`,
  `contains_insert`);
* `KindBits.contains_ofList`: a word made of some kinds holds what the `KindSet` of them holds;
* `KindBits.statementStart`: the keywords that begin a statement.
-/

namespace Lox.Token

namespace Kind

theorem index_lt (k : Kind) : k.index < 64 := by cases k <;> decide

theorem index_inj {k l : Kind} : k.index = l.index ↔ k = l := by
  refine ⟨fun h => ?_, congrArg index⟩
  have hall := all_index k
  rw [h, all_index l] at hall
  exact (Option.some.inj hall).symm

end Kind

/-- A set of kinds: the bit at the index of each is set. -/
structure KindBits where
  word : BitVec 64

namespace KindBits

/-- The set without members. -/
def empty : KindBits := ⟨0#64⟩

instance : EmptyCollection KindBits := ⟨empty⟩

/-- Sets the bit of a kind. -/
def insert (s : KindBits) (k : Kind) : KindBits := ⟨s.word ||| 1#64 <<< k.index⟩

/-- The bit of the kind is set. -/
def contains (s : KindBits) (k : Kind) : Bool := s.word &&& 1#64 <<< k.index != 0#64

theorem contains_eq_getLsbD (s : KindBits) (k : Kind) :
    s.contains k = s.word.getLsbD k.index := by
  have hset : BitVec.twoPow 64 k.index ≠ 0#64 := by
    intro hzero
    have hbit := congrArg (·.getLsbD k.index) hzero
    simp [k.index_lt] at hbit
  rw [contains, ← BitVec.twoPow_eq, BitVec.and_twoPow]
  cases s.word.getLsbD k.index <;> simp [hset]

@[simp] theorem contains_empty (k : Kind) : (∅ : KindBits).contains k = false := by
  rw [contains_eq_getLsbD]
  exact BitVec.getLsbD_zero

@[simp] theorem contains_insert (s : KindBits) (k l : Kind) :
    (s.insert k).contains l = (l == k || s.contains l) := by
  have hbit : (BitVec.twoPow 64 k.index).getLsbD l.index = (l == k) := by
    rw [BitVec.getLsbD_twoPow, Bool.eq_iff_iff]
    simpa [k.index_lt, Kind.index_inj] using eq_comm
  rw [contains_eq_getLsbD, contains_eq_getLsbD, insert, BitVec.getLsbD_or, ← BitVec.twoPow_eq, hbit,
    Bool.or_comm]

/-- The set of the given kinds. -/
def ofList (ks : List Kind) : KindBits := ks.foldl insert ∅

theorem contains_foldl_insert {b : KindBits} {s : KindSet} (h : ∀ k, b.contains k = s.contains k)
    (ks : List Kind) (k : Kind) :
    (ks.foldl insert b).contains k = (ks.foldl KindSet.insert s).contains k := by
  induction ks generalizing b s with
  | nil => exact h k
  | cons l ks ih => exact ih fun x => by rw [contains_insert, KindSet.contains_insert, h]

theorem contains_ofList (ks : List Kind) (k : Kind) :
    (ofList ks).contains k = (KindSet.ofList ks).contains k :=
  contains_foldl_insert (fun _ => contains_empty _) ks k

/-- The keywords that begin a statement. -/
def statementStart : KindBits :=
  ofList [.classKw, .funKw, .varKw, .forKw, .ifKw, .whileKw, .printKw, .returnKw]

theorem contains_statementStart (k : Kind) :
    statementStart.contains k = KindSet.statementStart.contains k := contains_ofList _ k

end KindBits

end Lox.Token
