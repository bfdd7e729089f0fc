import Lox.Proofs.Grammar.Rules

/-!
# The nearest `if`

The grammar leaves open to which `if` an `else` belongs. One reading is singled out: no `else`
skips an `if` that could take it.

* `Stmt.endsOpen`: a statement that would take an `else` right behind it;
* `Stmt.NearestElse`, `Stmt.NearestElseAll`: the trees of that reading;
* `Grammar.Statement.attach`: an `else` goes to the innermost `if` that is open;
* `Grammar.Declarations.balance`: what can be derived at all can be derived in that reading.
-/

namespace Lox

namespace Stmt

/-- The statement ends in an `if` without `else`, which would take an `else` right behind it. -/
def endsOpen : Stmt → Bool
  | ifThen _ _ => true
  | ifElse _ _ t => t.endsOpen
  | loop _ s => s.endsOpen
  | _ => false

mutual

/-- Each `else` in the statement belongs to the nearest `if` before it that has none. -/
def NearestElse : Stmt → Prop
  | block ss => NearestElseAll ss
  | ifThen _ s => s.NearestElse
  | ifElse _ s t => s.endsOpen = false ∧ s.NearestElse ∧ t.NearestElse
  | loop _ s => s.NearestElse
  | _ => True

/-- The same for every statement of a list. -/
def NearestElseAll : List Stmt → Prop
  | [] => True
  | s :: ss => s.NearestElse ∧ NearestElseAll ss

end

theorem nearestElseAll_append {ss ts : List Stmt} :
    NearestElseAll (ss ++ ts) ↔ NearestElseAll ss ∧ NearestElseAll ts := by
  induction ss with
  | nil => simp [NearestElseAll]
  | cons s ss ih => simp [NearestElseAll, ih, and_assoc]

end Stmt

namespace Grammar

/-- An `else` behind a statement that ends open goes to the innermost `if` that lacks one. -/
theorem Statement.attach {f : Token} {ws : List Token} {t : Stmt} (hf : f.kind = .elseKw)
    (hw : Statement ws t) (ht : t.NearestElse) : ∀ {ts : List Token} {s : Stmt}, Statement ts s →
    s.NearestElse → s.endsOpen = true →
    ∃ s', Statement (ts ++ f :: ws) s' ∧ s'.NearestElse
  | _, _, .expression _ _, _, ho | _, _, .print _ _ _, _, ho | _, _, .block _ _ _, _, ho => by
    cases ho
  | _, .ifThen c s, .ifThen hi hl hc hr hv, hn, _ => by
    rw [Stmt.NearestElse] at hn
    by_cases ho : s.endsOpen = true
    · obtain ⟨s', hs', hn'⟩ := attach hf hw ht hv hn ho
      refine ⟨.ifThen c s', ?_, by rwa [Stmt.NearestElse]⟩
      simpa using Statement.ifThen hi hl hc hr hs'
    · refine ⟨.ifElse c s t, ?_, by rw [Stmt.NearestElse]; exact ⟨by simpa using ho, hn, ht⟩⟩
      simpa using Statement.ifElse hi hl hc hr hv hf hw
  | _, .ifElse c s u, .ifElse hi hl hc hr hv hf' hu, hn, ho => by
    rw [Stmt.NearestElse] at hn
    rw [Stmt.endsOpen] at ho
    obtain ⟨t', ht', hn'⟩ := attach hf hw ht hu hn.2.2 ho
    refine ⟨.ifElse c s t', ?_, by rw [Stmt.NearestElse]; exact ⟨hn.1, hn.2.1, hn'⟩⟩
    simpa using Statement.ifElse hi hl hc hr hv hf' ht'
  | _, .loop c s, .loop hk hl hc hr hv, hn, ho => by
    rw [Stmt.NearestElse] at hn
    rw [Stmt.endsOpen] at ho
    obtain ⟨s', hs', hn'⟩ := attach hf hw ht hv hn ho
    refine ⟨.loop c s', ?_, by rwa [Stmt.NearestElse]⟩
    simpa using Statement.loop hk hl hc hr hs'

mutual

theorem Statement.balance : ∀ {ts : List Token} {s : Stmt}, Statement ts s →
    ∃ s', Statement ts s' ∧ s'.NearestElse
  | _, _, .expression he ht => ⟨_, .expression he ht, by simp [Stmt.NearestElse]⟩
  | _, _, .print hp he ht => ⟨_, .print hp he ht, by simp [Stmt.NearestElse]⟩
  | _, _, .block hl hds hr => by
    obtain ⟨ss', hds', hn⟩ := Declarations.balance hds
    exact ⟨_, .block hl hds' hr, by rwa [Stmt.NearestElse]⟩
  | _, _, .ifThen hi hl hc hr hs => by
    obtain ⟨s', hs', hn⟩ := Statement.balance hs
    exact ⟨_, .ifThen hi hl hc hr hs', by rwa [Stmt.NearestElse]⟩
  | _, _, .ifElse hi hl hc hr hs hf ht => by
    obtain ⟨s', hs', hn⟩ := Statement.balance hs
    obtain ⟨t', ht', hm⟩ := Statement.balance ht
    by_cases ho : s'.endsOpen = true
    · obtain ⟨u, hu, hnu⟩ := Statement.attach hf ht' hm hs' hn ho
      exact ⟨_, .ifThen hi hl hc hr hu, by rwa [Stmt.NearestElse]⟩
    · exact ⟨_, .ifElse hi hl hc hr hs' hf ht', by
        rw [Stmt.NearestElse]; exact ⟨by simpa using ho, hn, hm⟩⟩
  | _, _, .loop hk hl hc hr hs => by
    obtain ⟨s', hs', hn⟩ := Statement.balance hs
    exact ⟨_, .loop hk hl hc hr hs', by rwa [Stmt.NearestElse]⟩

theorem Declaration.balance : ∀ {ts : List Token} {s : Stmt}, Declaration ts s →
    ∃ s', Declaration ts s' ∧ s'.NearestElse
  | _, _, .plain hv hn ht => ⟨_, .plain hv hn ht, by simp [Stmt.NearestElse]⟩
  | _, _, .initialized hv hn hq he ht =>
    ⟨_, .initialized hv hn hq he ht, by simp [Stmt.NearestElse]⟩
  | _, _, .statement hs => by
    obtain ⟨s', hs', hn⟩ := Statement.balance hs
    exact ⟨s', .statement hs', hn⟩

/-- What derives as a program does so with each `else` at the nearest `if`. -/
theorem Declarations.balance : ∀ {ts : List Token} {ss : List Stmt}, Declarations ts ss →
    ∃ ss', Declarations ts ss' ∧ Stmt.NearestElseAll ss'
  | _, _, .nil => ⟨[], .nil, by rw [Stmt.NearestElseAll]; trivial⟩
  | _, _, .cons hd hds => by
    obtain ⟨s', hs', hn⟩ := Declaration.balance hd
    obtain ⟨ss', hds', hm⟩ := Declarations.balance hds
    exact ⟨s' :: ss', .cons hs' hds', by rw [Stmt.NearestElseAll]; exact ⟨hn, hm⟩⟩

end

end Grammar

end Lox
