import Lox.Token.Kind

/-!
# Sets of kinds

* `KindSet`: a set of kinds, given by membership;
* `KindSet.insert`, `KindSet.toList`: growth and listing (`contains_insert`, `mem_toList`);
* `KindSet.statementStart`: the keywords that begin a statement.
-/

namespace Lox.Token

/-- A set of kinds. -/
structure KindSet where
  contains : Kind → Bool

namespace KindSet

/-- The set without members. -/
def empty : KindSet := ⟨fun _ => false⟩

instance : EmptyCollection KindSet := ⟨empty⟩

/-- Adds a kind. -/
def insert (s : KindSet) (k : Kind) : KindSet := ⟨fun x => x == k || s.contains x⟩

@[simp] theorem contains_insert (s : KindSet) (k x : Kind) :
    (s.insert k).contains x = (x == k || s.contains x) := rfl

/-- The set of the given kinds. -/
def ofList (ks : List Kind) : KindSet := ks.foldl insert ∅

/-- The members in the order of `Kind.all`. -/
def toList (s : KindSet) : List Kind := Kind.all.filter s.contains

theorem mem_toList (s : KindSet) (k : Kind) : k ∈ s.toList ↔ s.contains k = true := by
  simp [toList, Kind.mem_all]

/-- The set has no member. -/
def isEmpty (s : KindSet) : Bool := s.toList.isEmpty

/-- The keywords that begin a statement. A reader that has lost its way resumes at one of them. -/
def statementStart : KindSet :=
  ofList [.classKw, .funKw, .varKw, .forKw, .ifKw, .whileKw, .printKw, .returnKw]

theorem contains_statementStart (k : Kind) : statementStart.contains k = true ↔
    k ∈ [Kind.classKw, .funKw, .varKw, .forKw, .ifKw, .whileKw, .printKw, .returnKw] := by
  cases k <;> decide

end KindSet

end Lox.Token
