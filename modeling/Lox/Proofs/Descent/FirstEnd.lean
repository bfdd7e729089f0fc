import Lox.Proofs.Descent.Recovery
import Lox.Proofs.Descent.Whole
import Lox.Proofs.Parse.Infix

/-!
# Tokens behind the first end

No call looks behind the first end. Where two token sequences are the same up to there, a call
takes the same way in both, also when it fails.

* `Agree`: sequences that are the same up to their first ends, which stand on one line;
* `moveEnd`: a fault at the end of one sequence, at the end of another;
* `Reads.agree`, `Parses.agree`, `Collects.agree`, `Whole.agree`: every call returns alike;
* `Agree.parse`, `Agree.parseExpr`: what is read;
* the main result: `read_to_first_end`.
-/

namespace Lox.Descent

open Token (Kind)
open Parse (Placed Cause Fault Use Reader atom? body before ending)

variable {tokens tokens' : List Token} {part : Part} {task : Task} {use : Use}
  {out : Option Expr} {tree : Option Stmt} {slots : List (Option Stmt)} {p q : Nat}
  {fs : List Fault} {cause : Cause}

/-- Up to their first ends the two sequences are the same, and the ends stand on one line. -/
structure Agree (tokens tokens' : List Token) : Prop where
  before : before tokens = before tokens'
  line : (ending tokens).line = (ending tokens').line

/-- A fault found at the end of the first sequence, found at the end of the second. -/
def moveEnd (tokens tokens' : List Token) (f : Fault) : Fault :=
  if f.token = ending tokens then ⟨ending tokens', f.cause⟩ else f

namespace Agree

variable (h : Agree tokens tokens')

include h

theorem size : size tokens' = size tokens := by
  rw [Descent.size, Descent.size, h.before]

theorem current_of_lt (hp : p < Descent.size tokens) : current tokens' p = current tokens p := by
  have hbody : body tokens = body tokens' := by rw [body, body, h.before]
  have hp' : p < Descent.size tokens' := by rwa [h.size]
  have hdrop := drop_body hp
  rw [hbody, drop_body hp'] at hdrop
  exact (List.cons.inj hdrop).1

theorem kind (hp : p ≤ Descent.size tokens) : kind tokens' p = kind tokens p := by
  rcases Nat.lt_or_eq_of_le hp with hlt | rfl
  · rw [Descent.kind, h.current_of_lt hlt, Descent.kind]
  · rw [kind_size, ← h.size, kind_size]

theorem look {α : Type} {get : Token → α} (a : α) (hp : p ≤ Descent.size tokens)
    (hget : ∀ t : Token, t.kind = .eof → get t = a) :
    get (current tokens' p).toToken = get (current tokens p).toToken := by
  rcases Nat.lt_or_eq_of_le hp with hlt | rfl
  · rw [h.current_of_lt hlt]
  · rw [hget _ (kind_size tokens), hget _ ((h.kind hp).trans (kind_size tokens))]

theorem atom (hp : p ≤ Descent.size tokens) :
    atom? (current tokens' p).toToken = atom? (current tokens p).toToken :=
  h.look none hp fun t ht => by simp [atom?, ht]

theorem operator (hp : p ≤ Descent.size tokens) :
    operator? (current tokens' p).toToken = operator? (current tokens p).toToken :=
  h.look none hp fun t ht => by simp [operator?, ht, BinaryOp.ofKind?, LogicalOp.ofKind?]

theorem fault (hp : p ≤ Descent.size tokens) (cause : Cause) :
    moveEnd tokens tokens' ⟨current tokens p, cause⟩ = ⟨current tokens' p, cause⟩ := by
  rcases Nat.lt_or_eq_of_le hp with hlt | rfl
  · have hne : current tokens p ≠ ending tokens := by
      intro heq
      exact kind_ne_eof hlt ((congrArg (·.kind) heq).trans (Parse.kind_ending tokens))
    rw [moveEnd, if_neg hne, h.current_of_lt hlt]
  · rw [moveEnd, if_pos current_size, ← h.size, current_size]

theorem concat (hp : p ≤ Descent.size tokens) (fs : List Fault) (cause : Cause) :
    List.map (moveEnd tokens tokens') (fs ++ [⟨current tokens p, cause⟩]) =
      fs.map (moveEnd tokens tokens') ++ [⟨current tokens' p, cause⟩] := by
  rw [List.map_append, List.map_singleton, h.fault hp]

theorem diagnostic (f : Fault) : (moveEnd tokens tokens' f).diagnostic = f.diagnostic := by
  rw [moveEnd]
  split_ifs with heq
  · simp only [Fault.diagnostic, Diagnostic.syntactic, Location.ofToken, heq, h.line,
      Parse.isEnd_ending, if_true]
  · rfl

theorem isBoundary (hp : p ≤ Descent.size tokens) :
    Reader.isBoundary (Descent.kind tokens' (p - 1)) (current tokens' p) =
      Reader.isBoundary (Descent.kind tokens (p - 1)) (current tokens p) := by
  have hkind := h.kind hp
  rw [Descent.kind, Descent.kind] at hkind
  rw [Reader.isBoundary, Reader.isBoundary, hkind, h.kind (Nat.le_trans (Nat.sub_le p 1) hp)]

theorem advance (hp : p ≤ Descent.size tokens) : advance tokens' p = advance tokens p := by
  rw [Descent.advance, Descent.advance, h.kind hp]

end Agree

/-! ## Expressions -/

theorem Reads.agree (hagree : Agree tokens tokens') (h : Reads tokens part p out q fs)
    (hp : p ≤ size tokens) :
    Reads tokens' part p out q (fs.map (moveEnd tokens tokens')) := by
  -- A call inside begins where the one before it has returned, or behind a token that is no end:
  -- in both cases at most at the first end, up to which the sequences agree.
  induction h with
  | atom h => exact .atom (by rwa [hagree.atom hp])
  | unary h _ ih =>
    have hlt := lt_size hp (ne_eof_of_ofKind? h)
    rw [← hagree.current_of_lt hlt]
    exact .unary (by rwa [hagree.kind hp]) (ih hlt)
  | grouping h hinner hclose ih =>
    have hlt := lt_size hp (by simp [h])
    exact .grouping (by rwa [hagree.kind hp]) (ih hlt)
      (by rwa [hagree.kind (hinner.bounds hlt).2])
  | groupingOpen h hinner hopen ih =>
    have hlt := lt_size hp (by simp [h])
    have hq := (hinner.bounds hlt).2
    rw [hagree.concat hq]
    exact .groupingOpen (by rwa [hagree.kind hp]) (ih hlt) (by rwa [hagree.kind hq])
  | groupingFails h _ ih =>
    exact .groupingFails (by rwa [hagree.kind hp]) (ih (lt_size hp (by simp [h])))
  | noOperand hatom hunary hparen =>
    rw [List.map_singleton, hagree.fault hp]
    exact .noOperand (by rwa [hagree.atom hp]) (by rwa [hagree.kind hp])
      (by rwa [hagree.kind hp])
  | above _ ih => exact .above (ih hp)
  | level hn hfirst _ ihl ihr =>
    rw [List.map_append]
    exact .level hn (ihl hp) (ihr (hfirst.bounds hp).2)
  | levelFails hn _ ih => exact .levelFails hn (ih hp)
  | more hop hright _ ihl ihr =>
    have hlt := lt_size hp (ne_eof_of_operator? hop)
    rw [List.map_append]
    exact .more (by rwa [hagree.operator hp]) (ihl hlt) (ihr (hright.bounds hlt).2)
  | moreFails hop _ ih =>
    exact .moreFails (by rwa [hagree.operator hp]) (ih (lt_size hp (ne_eof_of_operator? hop)))
  | noMore hno => exact .noMore (by rwa [hagree.operator hp])
  | plain h hequal ih => exact .plain (ih hp) (by rwa [hagree.kind (h.bounds hp).2])
  | plainFails _ ih => exact .plainFails (ih hp)
  | assign h hequal _ ihl ihr =>
    have hq := (h.bounds hp).2
    rw [List.map_append]
    exact .assign (ihl hp) (by rwa [hagree.kind hq]) (ihr (lt_size hq (by simp [hequal])))
  | noTarget h htarget hequal _ ihl ihr =>
    have hq := (h.bounds hp).2
    rw [hagree.concat hq, List.map_append]
    exact .noTarget (ihl hp) htarget (by rwa [hagree.kind hq])
      (ihr (lt_size hq (by simp [hequal])))
  | valueFails h hequal _ ihl ihr =>
    have hq := (h.bounds hp).2
    rw [List.map_append]
    exact .valueFails (ihl hp) (by rwa [hagree.kind hq]) (ihr (lt_size hq (by simp [hequal])))

theorem Expects.agree (hagree : Agree tokens tokens') (h : Expects tokens use p out q fs)
    (hp : p ≤ size tokens) :
    Expects tokens' use p out q (fs.map (moveEnd tokens tokens')) := by
  cases h with
  | closed h hclose =>
    exact .closed (h.agree hagree hp) (by rwa [hagree.kind (h.bounds hp).2])
  | missing h hopen =>
    have hq := (h.bounds hp).2
    rw [hagree.concat hq]
    exact .missing (h.agree hagree hp) (by rwa [hagree.kind hq])
  | fails h => exact .fails (h.agree hagree hp)

theorem Whole.agree (hagree : Agree tokens tokens') {out : Except Fault Expr}
    (h : Whole tokens out q fs) :
    Whole tokens' (out.mapError (moveEnd tokens tokens')) q
      (fs.map (moveEnd tokens tokens')) := by
  have hq := h.le_size
  cases h with
  | spans h hend =>
    exact .spans (h.agree hagree (Nat.zero_le _)) (by rwa [hagree.kind hq])
  | continues h hne =>
    rw [hagree.concat hq, Except.mapError, hagree.fault hq]
    exact .continues (h.agree hagree (Nat.zero_le _)) (by rwa [hagree.kind hq])
  | fails h =>
    have hfails := h.agree hagree (Nat.zero_le _)
    rw [List.map_append, List.map_singleton] at hfails ⊢
    exact .fails hfails

/-! ## Statements -/

theorem Boundary.agree (hagree : Agree tokens tokens') (h : Boundary tokens p q)
    (hp : p ≤ size tokens) : Boundary tokens' p q := by
  induction h with
  | ended hend => exact .ended (by rwa [hagree.kind hp])
  | found hne hfound =>
    exact .found (by rwa [hagree.kind hp]) (by rwa [hagree.isBoundary hp])
  | next hne hnot _ ih =>
    exact .next (by rwa [hagree.kind hp]) (by rwa [hagree.isBoundary hp]) (ih (lt_size hp hne))

theorem Parses.agree (hagree : Agree tokens tokens') (h : Parses tokens task p tree q fs)
    (hp : p ≤ size tokens) :
    Parses tokens' task p tree q (fs.map (moveEnd tokens tokens')) := by
  induction h with
  | print hk hvalue =>
    exact .print (by rwa [hagree.kind hp]) (hvalue.agree hagree (lt_size hp (by simp [hk])))
  | block hk _ ih => exact .block (by rwa [hagree.kind hp]) (ih (lt_size hp (by simp [hk])))
  | ifOpen hk hopen =>
    have hlt := lt_size hp (by simp [hk])
    rw [List.map_singleton, hagree.fault hlt]
    exact .ifOpen (by rwa [hagree.kind hp]) (by rwa [hagree.kind hlt])
  | ifFails hk hparen hc =>
    have htwo := add_two_le_size hp (by simp [hk]) (by simp [hparen])
    exact .ifFails (by rwa [hagree.kind hp]) (by rwa [hagree.kind (Nat.le_of_succ_le htwo)])
      (hc.agree hagree htwo)
  | thenFails hk hparen hc _ ih =>
    have htwo := add_two_le_size hp (by simp [hk]) (by simp [hparen])
    rw [List.map_append]
    exact .thenFails (by rwa [hagree.kind hp]) (by rwa [hagree.kind (Nat.le_of_succ_le htwo)])
      (hc.agree hagree htwo) (ih (hc.bounds htwo).2)
  | ifThen hk hparen hc hthen helse ih =>
    have htwo := add_two_le_size hp (by simp [hk]) (by simp [hparen])
    have hq := (hc.bounds htwo).2
    rw [List.map_append]
    exact .ifThen (by rwa [hagree.kind hp]) (by rwa [hagree.kind (Nat.le_of_succ_le htwo)])
      (hc.agree hagree htwo) (ih hq) (by rwa [hagree.kind (hthen.bounds hq).2])
  | ifElse hk hparen hc hthen helse _ ih ih' =>
    have htwo := add_two_le_size hp (by simp [hk]) (by simp [hparen])
    have hq := (hc.bounds htwo).2
    have hq' := (hthen.bounds hq).2
    rw [List.map_append, List.map_append]
    exact .ifElse (by rwa [hagree.kind hp]) (by rwa [hagree.kind (Nat.le_of_succ_le htwo)])
      (hc.agree hagree htwo) (ih hq) (by rwa [hagree.kind hq'])
      (ih' (lt_size hq' (by simp [helse])))
  | whileOpen hk hopen =>
    have hlt := lt_size hp (by simp [hk])
    rw [List.map_singleton, hagree.fault hlt]
    exact .whileOpen (by rwa [hagree.kind hp]) (by rwa [hagree.kind hlt])
  | whileFails hk hparen hc =>
    have htwo := add_two_le_size hp (by simp [hk]) (by simp [hparen])
    exact .whileFails (by rwa [hagree.kind hp]) (by rwa [hagree.kind (Nat.le_of_succ_le htwo)])
      (hc.agree hagree htwo)
  | loop hk hparen hc _ ih =>
    have htwo := add_two_le_size hp (by simp [hk]) (by simp [hparen])
    rw [List.map_append]
    exact .loop (by rwa [hagree.kind hp]) (by rwa [hagree.kind (Nat.le_of_succ_le htwo)])
      (hc.agree hagree htwo) (ih (hc.bounds htwo).2)
  | expression hk hvalue => exact .expression (by rwa [hagree.kind hp]) (hvalue.agree hagree hp)
  | nameless hk hname =>
    have hlt := lt_size hp (by simp [hk])
    rw [List.map_singleton, hagree.fault hlt]
    exact .nameless (by rwa [hagree.kind hp]) (by rwa [hagree.kind hlt])
  | unended hk hname hend =>
    have htwo := add_two_le_size hp (by simp [hk]) (by simp [hname])
    rw [List.map_singleton, hagree.fault htwo]
    exact .unended (by rwa [hagree.kind hp]) (by rwa [hagree.kind (Nat.le_of_succ_le htwo)])
      (by rwa [hagree.kind htwo])
  | declared hk hname hend =>
    have htwo := add_two_le_size hp (by simp [hk]) (by simp [hname])
    rw [← hagree.current_of_lt htwo]
    exact .declared (by rwa [hagree.kind hp]) (by rwa [hagree.kind (Nat.le_of_succ_le htwo)])
      (by rwa [hagree.kind htwo])
  | initialized hk hname heq hequal hvalue =>
    have htwo := add_two_le_size hp (by simp [hk]) (by simp [hname])
    rw [← hagree.current_of_lt htwo] at heq
    exact .initialized (by rwa [hagree.kind hp]) (by rwa [hagree.kind (Nat.le_of_succ_le htwo)])
      heq (by rwa [hagree.kind htwo]) (hvalue.agree hagree (lt_size htwo (by simp [hequal])))
  | undeclared hk _ ih => exact .undeclared (by rwa [hagree.kind hp]) (ih hp)
  | succeeds _ ih => exact .succeeds (ih hp)
  | recovers h hskip ih =>
    have hq := (h.bounds hp).2
    have hboundary := hskip.agree hagree (advance_bounds hq).2
    exact .recovers (ih hp) (by rwa [hagree.advance hq])
  | closed hk => exact .closed (by rwa [hagree.kind hp])
  | missing hk =>
    rw [List.map_singleton, hagree.fault hp]
    exact .missing (by rwa [hagree.kind hp])
  | next hk h _ ih ih' =>
    rw [List.map_append]
    exact .next (by rwa [hagree.kind hp]) (ih hp) (ih' (h.bounds hp).2)

theorem Collects.agree (hagree : Agree tokens tokens') (h : Collects tokens p slots q fs)
    (hp : p ≤ size tokens) :
    Collects tokens' p slots q (fs.map (moveEnd tokens tokens')) := by
  induction h with
  | ended hend => exact .ended (by rwa [hagree.kind hp])
  | next hne h _ ih =>
    rw [List.map_append]
    exact .next (by rwa [hagree.kind hp]) (h.agree hagree hp) (ih (h.bounds hp).2)

/-! ## What is read -/

namespace Agree

variable (h : Agree tokens tokens')

include h

theorem parse : Parse.parse tokens' =
    ⟨(Parse.parse tokens).slots, (Parse.parse tokens).faults.map (moveEnd tokens tokens')⟩ := by
  obtain ⟨slots, q, fs, hcollects⟩ := exists_collects (Nat.zero_le (Descent.size tokens))
  rw [hcollects.parse, (hcollects.agree h (Nat.zero_le _)).parse]

theorem parseExpr : Parse.parseExpr tokens' =
    ((Parse.parseExpr tokens).1.mapError (moveEnd tokens tokens'),
      (Parse.parseExpr tokens).2.map (moveEnd tokens tokens')) := by
  obtain ⟨out, q, fs, hwhole⟩ := exists_whole tokens
  rw [hwhole.parseExpr, (hwhole.agree h).parseExpr]

theorem recover (hp : p ≤ Descent.size tokens) : recover tokens' p = recover tokens p := by
  have hskip := boundary_recover tokens p
  have hnext := (advance_bounds hp).2
  have hfst := hskip.agree h hnext
  rw [← h.advance hp, boundary_iff] at hfst
  refine Prod.ext hfst.symm ?_
  rw [Bool.eq_iff_iff, snd_recover, snd_recover, ← hfst, h.kind (hskip.bounds hnext).2]

end Agree

/-- What is read of both sequences is the same, and so are the errors. -/
structure ReadAlike (tokens tokens' : List Token) : Prop where
  slots : (Parse.parse tokens).slots = (Parse.parse tokens').slots
  diagnostics : (Parse.parse tokens).diagnostics = (Parse.parse tokens').diagnostics
  outcome : (Parse.parseExpr tokens).1.mapError Fault.diagnostic =
    (Parse.parseExpr tokens').1.mapError Fault.diagnostic
  errors : (Parse.parseExpr tokens).2.map Fault.diagnostic =
    (Parse.parseExpr tokens').2.map Fault.diagnostic

theorem Agree.readAlike (h : Agree tokens tokens') : ReadAlike tokens tokens' := by
  -- The faults may lie at different ends, but an error holds no more of them than their line.
  have hdiagnostic : Fault.diagnostic ∘ moveEnd tokens tokens' = Fault.diagnostic :=
    funext h.diagnostic
  refine ⟨?_, ?_, ?_, ?_⟩
  · rw [h.parse]
  · rw [h.parse, Parse.Program.diagnostics, Parse.Program.diagnostics, List.map_map, hdiagnostic]
  · rw [h.parseExpr]
    cases (Parse.parseExpr tokens).1 with
    | ok e => rfl
    | error f => exact congrArg Except.error (h.diagnostic f).symm
  · rw [h.parseExpr, List.map_map, hdiagnostic]

/-! ## The same ends -/

/-- Every call that begins before the first end, or at it, returns in both sequences at the same
place and with the same. In the first sequence the calls for all declarations, and that for a whole
expression, amount to what is read of the second. -/
structure CalledAlike (tokens tokens' : List Token) : Prop where
  reads : ∀ p ≤ size tokens, ∀ part out q fs,
    Reads tokens part p out q fs ↔ Reads tokens' part p out q fs
  parses : ∀ p ≤ size tokens, ∀ task tree q fs,
    Parses tokens task p tree q fs ↔ Parses tokens' task p tree q fs
  recovers : ∀ p ≤ size tokens, recover tokens p = recover tokens' p
  collects : Collects tokens 0 (Parse.parse tokens').slots (size tokens)
    (Parse.parse tokens').faults
  whole : ∃ q ≤ size tokens,
    Whole tokens (Parse.parseExpr tokens').1 q (Parse.parseExpr tokens').2

section

theorem agree_of_eq (hbefore : before tokens = before tokens')
    (hending : ending tokens = ending tokens') : Agree tokens tokens' :=
  ⟨hbefore, congrArg (·.line) hending⟩

theorem moveEnd_eq_id (hending : ending tokens = ending tokens') :
    moveEnd tokens tokens' = id := by
  funext f
  rw [moveEnd]
  split_ifs with heq
  · rw [← hending, ← heq]
    rfl
  · rfl

variable (hbefore : before tokens = before tokens') (hending : ending tokens = ending tokens')

include hbefore hending

theorem parse_eq : Parse.parse tokens = Parse.parse tokens' := by
  have hparse := (agree_of_eq hbefore hending).parse
  rw [moveEnd_eq_id hending, List.map_id] at hparse
  exact hparse.symm

theorem parseExpr_eq : Parse.parseExpr tokens = Parse.parseExpr tokens' := by
  have hid : ∀ out : Except Fault Expr, out.mapError id = out := by rintro (f | e) <;> rfl
  have hparse := (agree_of_eq hbefore hending).parseExpr
  rw [moveEnd_eq_id hending, List.map_id, hid] at hparse
  exact hparse.symm

theorem Reads.of_eq (h : Reads tokens part p out q fs) (hp : p ≤ size tokens) :
    Reads tokens' part p out q fs := by
  have hreads := h.agree (agree_of_eq hbefore hending) hp
  rwa [moveEnd_eq_id hending, List.map_id] at hreads

theorem Parses.of_eq (h : Parses tokens task p tree q fs) (hp : p ≤ size tokens) :
    Parses tokens' task p tree q fs := by
  have hparses := h.agree (agree_of_eq hbefore hending) hp
  rwa [moveEnd_eq_id hending, List.map_id] at hparses

theorem calledAlike : CalledAlike tokens tokens' where
  reads p hp part out q fs := by
    have hp' : p ≤ size tokens' := by rwa [(agree_of_eq hbefore hending).size]
    exact ⟨fun h => h.of_eq hbefore hending hp, fun h => h.of_eq hbefore.symm hending.symm hp'⟩
  parses p hp task tree q fs := by
    have hp' : p ≤ size tokens' := by rwa [(agree_of_eq hbefore hending).size]
    exact ⟨fun h => h.of_eq hbefore hending hp, fun h => h.of_eq hbefore.symm hending.symm hp'⟩
  recovers p hp := ((agree_of_eq hbefore hending).recover hp).symm
  collects := by
    rw [← parse_eq hbefore hending]
    exact collects_parse tokens
  whole := by
    obtain ⟨q, hwhole⟩ := whole_parseExpr tokens
    rw [← parseExpr_eq hbefore hending]
    exact ⟨q, hwhole.le_size, hwhole⟩

end

/-! ## The first end -/

/-- The line of the last token, and the first if there is none. -/
def lastLine (tokens : List Token) : Nat := (tokens.getLast?.map (·.line)).getD 1

section

variable {pre : List Token} {f : Token}

theorem ending_append_end (hpre : ∀ t ∈ pre, t.isEnd = false) (hf : f.isEnd = true)
    (post : List Token) : ending (pre ++ f :: post) = ⟨f, pre.length⟩ := by
  have hnone : pre.find? (·.isEnd) = none := List.find?_eq_none.mpr fun t ht => by simp [hpre t ht]
  rw [ending, Parse.before_append_end hpre hf, List.find?_append, hnone, Option.none_or,
    List.find?_cons_of_pos hf]
  rfl

theorem ending_of_not_isEnd (hpre : ∀ t ∈ pre, t.isEnd = false) :
    ending pre = ⟨.endOn (lastLine pre), pre.length⟩ := by
  have hnone : pre.find? (·.isEnd) = none := List.find?_eq_none.mpr fun t ht => by simp [hpre t ht]
  rw [ending, Parse.before_eq hpre, hnone]
  rfl

/-- **Only the tokens before the first end count.** What stands behind the first end changes nothing
of what is read as a program or as an expression, and no call takes another way. Tokens without an
end are read as if one followed them on the line of the last token, or on the first line if there
is none; whatever else such an end holds, what is read and the errors are the same. -/
theorem read_to_first_end (hpre : ∀ t ∈ pre, t.isEnd = false) (hf : f.isEnd = true)
    (post : List Token) :
    (Parse.parse (pre ++ f :: post) = Parse.parse (pre ++ [f]) ∧
      Parse.parseExpr (pre ++ f :: post) = Parse.parseExpr (pre ++ [f]) ∧
      CalledAlike (pre ++ f :: post) (pre ++ [f])) ∧
    (Parse.parse pre = Parse.parse (pre ++ [.endOn (lastLine pre)]) ∧
      Parse.parseExpr pre = Parse.parseExpr (pre ++ [.endOn (lastLine pre)]) ∧
      CalledAlike pre (pre ++ [.endOn (lastLine pre)])) ∧
    ∀ g : Token, g.isEnd = true → g.line = lastLine pre → ReadAlike pre (pre ++ [g]) := by
  have hbefore : ∀ {t : Token}, t.isEnd = true → ∀ ts, before (pre ++ t :: ts) = pre :=
    fun ht ts => Parse.before_append_end hpre ht ts
  have hsame : before (pre ++ f :: post) = before (pre ++ [f]) := by rw [hbefore hf, hbefore hf]
  have hends : ending (pre ++ f :: post) = ending (pre ++ [f]) := by
    rw [ending_append_end hpre hf, ending_append_end hpre hf]
  have hsame' : before pre = before (pre ++ [.endOn (lastLine pre)]) := by
    rw [hbefore rfl, Parse.before_eq hpre]
  have hends' : ending pre = ending (pre ++ [.endOn (lastLine pre)]) := by
    rw [ending_append_end hpre rfl, ending_of_not_isEnd hpre]
  refine ⟨⟨parse_eq hsame hends, parseExpr_eq hsame hends, calledAlike hsame hends⟩,
    ⟨parse_eq hsame' hends', parseExpr_eq hsame' hends', calledAlike hsame' hends'⟩, ?_⟩
  refine fun g hg hline => Agree.readAlike ⟨?_, ?_⟩
  · rw [hbefore hg, Parse.before_eq hpre]
  · rw [ending_append_end hpre hg, ending_of_not_isEnd hpre]
    exact hline.symm

/-- A `print` whose semicolon stands behind the end misses it, on the line of that end. Without an
end it misses it on the line of its last token. -/
theorem read_to_first_end_print :
    let mark (k : Kind) (x : String) (line : Nat) : Token := { kind := k, lexeme := x, line }
    let pre := [mark .printKw "print" 1, mark .trueKw "true" 3]
    let f := mark .eof "" 2
    let post := [mark .semicolon ";" 9, mark .eof "" 9]
    ((∀ t ∈ pre, t.isEnd = false) ∧ f.isEnd = true) ∧
      (Parse.parse (pre ++ f :: post)).diagnostics =
        [⟨.syntactic, 2, .atEnd, "Expect ';' after value."⟩] ∧
      (Parse.parse pre).diagnostics = [⟨.syntactic, 3, .atEnd, "Expect ';' after value."⟩] ∧
      (Parse.parse (pre ++ [mark .eof "end" 3])).diagnostics =
        [⟨.syntactic, 3, .atEnd, "Expect ';' after value."⟩] := by
  intro mark pre f post
  have hpre : ∀ t ∈ pre, t.isEnd = false := by decide
  have hf : f.isEnd = true := rfl
  obtain ⟨⟨hparse, -⟩, ⟨hparse', -⟩, halike⟩ := read_to_first_end hpre hf post
  have hlast := (halike (mark .eof "end" 3) rfl rfl).diagnostics
  refine ⟨⟨hpre, hf⟩, ?_, ?_, ?_⟩
  · rw [hparse]
    rfl
  · rw [hparse']
    rfl
  · rw [← hlast]
    rfl

end

end Lox.Descent
