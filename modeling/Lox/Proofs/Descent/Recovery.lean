import Mathlib.Order.Bounds.Basic
import Lox.Proofs.Descent.Programs
import Lox.Proofs.Token.Bits

/-!
# Recovery from a fault

Where a declaration is given up the cursor is moved: past the token at fault, and on to the
nearest boundary behind it.

* `skip`, `recover`: the cursor at the boundary, and whether it stands before the end;
* `boundary_iff`: the rules for boundaries lead to the same place;
* `IsStop`, `Boundary.isLeast`: of the places where the cursor may stop it is the nearest;
* `Passes`, `Boundary.passes`: a reader passes over the tokens up to there;
* the main result: `recover_nearest`.
-/

namespace Lox.Descent

open Token (Kind KindBits KindSet)
open Parse (Cause Reader)

section

variable (tokens : List Token)

theorem lt_length {p : Nat} (h : kind tokens p ≠ .eof) : p < tokens.length := by
  by_contra hge
  rw [kind, current, List.getElem?_eq_none (Nat.le_of_not_lt hge)] at h
  exact h rfl

/-- Moves the cursor on until it stands at a boundary, and tells whether it is one before the
end. -/
def skip (p : Nat) : Nat × Bool :=
  if kind tokens p = .eof then (p, false)
  else if Reader.isBoundary (kind tokens (p - 1)) (current tokens p) then (p, true)
  else skip (advance tokens p)
termination_by tokens.length - p
decreasing_by
  have hlt := lt_length tokens ‹_›
  rw [advance, if_neg ‹_›]
  omega

/-- Recovery from a fault at the place, whose token is passed first. -/
def recover (p : Nat) : Nat × Bool := skip tokens (advance tokens p)

/-- A place where the cursor may stop: the first end, behind a semicolon, or before a keyword that
begins a statement. -/
def IsStop (q : Nat) : Prop :=
  q = size tokens ∨ kind tokens (q - 1) = .semicolon ∨
    KindBits.statementStart.contains (kind tokens q) = true

/-- A reader that gives a declaration up at the first place, whatever it has read, passes over the
tokens up to the second and goes on there with a declaration. -/
structure Passes (p q : Nat) : Prop where
  skips (r : Reader) (cause : Cause) :
    (between tokens (p + 1) q).foldl Reader.read (r.fail (current tokens p) cause) =
      { r.fail (current tokens p) cause with mode := .skipping (kind tokens (q - 1)) }
  begins (r : Reader) (hq : q < size tokens) :
    ({ r with mode := .skipping (kind tokens (q - 1)) } : Reader).read (current tokens q) =
      ({ r with mode := .declaration } : Reader).read (current tokens q)
  amounts (r : Reader) (cause : Cause) :
    rest tokens (r.fail (current tokens p) cause) (p + 1) =
      rest tokens { r.fail (current tokens p) cause with mode := .declaration } q

end

variable {tokens : List Token} {p q : Nat}

/-! ## The way of the cursor -/

theorem boundary_skip (tokens : List Token) (p : Nat) :
    Boundary tokens p (skip tokens p).1 := by
  fun_induction skip tokens p with
  | case1 p hend => exact .ended hend
  | case2 p hne hfound => exact .found hne hfound
  | case3 p hne hnot ih =>
    rw [advance, if_neg hne] at ih
    exact .next hne (by simpa using hnot) (by rwa [advance, if_neg hne])

theorem boundary_recover (tokens : List Token) (p : Nat) :
    Boundary tokens (advance tokens p) (recover tokens p).1 := boundary_skip tokens _

theorem boundary_iff : Boundary tokens (advance tokens p) q ↔ q = (recover tokens p).1 := by
  refine ⟨fun h => h.unique (boundary_recover tokens p), ?_⟩
  rintro rfl
  exact boundary_recover tokens p

/-- A boundary is found unless the cursor comes to an end. -/
theorem snd_skip (tokens : List Token) (p : Nat) :
    (skip tokens p).2 = true ↔ kind tokens (skip tokens p).1 ≠ .eof := by
  fun_induction skip tokens p with
  | case1 p hend => simp [hend]
  | case2 p hne _ => simp [hne]
  | case3 p _ _ ih => exact ih

theorem snd_recover (tokens : List Token) (p : Nat) :
    (recover tokens p).2 = true ↔ kind tokens (recover tokens p).1 ≠ .eof := snd_skip tokens _

theorem recover_of_eof (h : kind tokens p = .eof) : recover tokens p = (p, false) := by
  rw [recover, advance, if_pos h, skip, if_pos h]

/-! ## The nearest boundary -/

theorem isBoundary_iff (h : p < size tokens) :
    Reader.isBoundary (kind tokens (p - 1)) (current tokens p) = true ↔ IsStop tokens p := by
  rw [IsStop, or_iff_right (Nat.ne_of_lt h), KindBits.contains_statementStart, Reader.isBoundary,
    Bool.or_eq_true, beq_iff_eq]
  rfl

theorem Boundary.isLeast (h : Boundary tokens p q) (hp : p ≤ size tokens) :
    IsLeast {q | p ≤ q ∧ q ≤ size tokens ∧ IsStop tokens q} q := by
  induction h with
  | ended hend => exact ⟨⟨Nat.le_refl _, hp, .inl (eq_size hp hend)⟩, fun _ hx => hx.1⟩
  | found hne hfound =>
    have hstop := (isBoundary_iff (lt_size hp hne)).mp hfound
    exact ⟨⟨Nat.le_refl _, hp, hstop⟩, fun _ hx => hx.1⟩
  | @next p q hne hnot _ ih =>
    have hlt := lt_size hp hne
    obtain ⟨⟨hle, hsize, hstop⟩, hleast⟩ := ih hlt
    refine ⟨⟨Nat.le_of_succ_le hle, hsize, hstop⟩, fun x hx => ?_⟩
    rcases Nat.eq_or_lt_of_le hx.1 with rfl | hpx
    -- The place itself is none: it has been tested.
    · rw [(isBoundary_iff hlt).mpr hx.2.2] at hnot
      cases hnot
    · exact hleast ⟨hpx, hx.2⟩

/-! ## What a reader makes of it -/

/-- Only the latest kind is kept of what is skipped. -/
theorem Boundary.foldl_read (h : Boundary tokens p q) (hp : p ≤ size tokens) (r : Reader)
    {k : Kind} (hk : k = kind tokens (p - 1)) :
    (between tokens p q).foldl Reader.read { r with mode := .skipping k } =
      { r with mode := .skipping (kind tokens (q - 1)) } := by
  -- The kind that the reader keeps is that before the cursor, which the rules look at.
  induction h generalizing k with
  | ended | found =>
    rw [between_self, hk]
    rfl
  | @next p q hne hnot h ih =>
    have hlt := lt_size hp hne
    obtain ⟨hle, hsize⟩ := h.bounds hlt
    rw [between_of_lt hle hsize, List.foldl_cons, ← ih hlt rfl]
    congr 1
    simp only [Reader.read, hk, hnot]
    rfl

theorem Boundary.isBoundary (h : Boundary tokens p q) (hp : p ≤ size tokens)
    (hq : q < size tokens) :
    Reader.isBoundary (kind tokens (q - 1)) (current tokens q) = true :=
  (isBoundary_iff hq).mpr (h.isLeast hp).1.2.2

theorem Boundary.passes (h : Boundary tokens (p + 1) q) (hp : p < size tokens) :
    Passes tokens p q where
  skips r cause := h.foldl_read hp (r.fail (current tokens p) cause) rfl
  begins r hq := by
    simp only [Reader.read, h.isBoundary hp hq]
    rfl
  amounts r cause := h.follows hp (r.fail (current tokens p) cause) fun _ => rfl

/-- **Recovery stops at the nearest boundary.** Behind a fault at a place before the first end the
cursor is moved to the nearest place that is the first end, stands behind a semicolon or before
one of the eight keywords that begin a statement, and a boundary is found unless that is the end.
A reader passes over the tokens up to there and goes on with a declaration. At an end the cursor
is not moved. -/
theorem recover_nearest (tokens : List Token) :
    (∀ p < size tokens,
      IsLeast {q | p < q ∧ q ≤ size tokens ∧ IsStop tokens q} (recover tokens p).1 ∧
      ((recover tokens p).2 = true ↔ (recover tokens p).1 < size tokens) ∧
      Passes tokens p (recover tokens p).1) ∧
    (∀ p, kind tokens p = .eof → recover tokens p = (p, false)) ∧
    (∀ p q, Boundary tokens (advance tokens p) q ↔ q = (recover tokens p).1) ∧
    ∀ k, KindBits.statementStart.contains k = true ↔
      k ∈ [Kind.classKw, .funKw, .varKw, .forKw, .ifKw, .whileKw, .printKw, .returnKw] := by
  refine ⟨fun p hp => ?_, fun p => recover_of_eof, fun p q => boundary_iff, fun k => ?_⟩
  · have hboundary := boundary_recover tokens p
    rw [advance_of_lt hp] at hboundary
    have hsize := (hboundary.bounds hp).2
    refine ⟨hboundary.isLeast hp, ?_, hboundary.passes hp⟩
    rw [snd_recover]
    exact ⟨lt_size hsize, kind_ne_eof⟩
  · rw [KindBits.contains_statementStart, KindSet.contains_statementStart]

/-- `+ ; a print` given up at each of its tokens. Behind the semicolon there is a boundary, also if
it is itself at fault, but `print` at fault is passed. -/
theorem recover_nearest_semicolon :
    let mark (k : Kind) (x : String) : Token := { kind := k, lexeme := x, line := 1 }
    let tokens := [mark .plus "+", mark .semicolon ";", mark .identifier "a",
      mark .printKw "print"]
    recover tokens 0 = (2, true) ∧ recover tokens 1 = (2, true) ∧ recover tokens 2 = (3, true) ∧
      recover tokens 3 = (4, false) := by
  intro mark tokens
  obtain ⟨hnearest, -, hway, -⟩ := recover_nearest tokens
  have hstops : ∀ p < 4, ∀ q, Boundary tokens (advance tokens p) q →
      recover tokens p = (q, decide (q < 4)) := by
    intro p hp q h
    have hfst := (hway p q).mp h
    have hsnd := (hnearest p hp).2.1
    rw [← hfst] at hsnd
    exact Prod.ext hfst.symm (Bool.eq_iff_iff.mpr (hsnd.trans decide_eq_true_iff.symm))
  have hbehind : Boundary tokens 2 2 := .found (by decide) rfl
  exact ⟨hstops 0 (by decide) 2 (.next (by decide) rfl hbehind), hstops 1 (by decide) 2 hbehind,
    hstops 2 (by decide) 3 (.found (by decide) rfl), hstops 3 (by decide) 4 (.ended rfl)⟩

end Lox.Descent
