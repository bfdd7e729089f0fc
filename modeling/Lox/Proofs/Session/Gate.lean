import Lox.Proofs.Session.Text
import Mathlib.Data.List.Induction

/-!
# Static errors keep texts from being run

* `Session.Call`, `Session.Answers`: what a session is asked, and how a call that ends leaves it;
* `Session.Exchange`, `Session.History`: calls that have ended, one after the other;
* `Session.sinceReset`: the errors reported since the last reset (`History.log`: the log holds
  them, and its flag says whether one is static);
* `Session.Answers.text_cases`: the three ways in which the work on a text ends;
* the main result: `Exchange.Gated` holds of every exchange about a text.
-/

namespace Lox.Session

open Source Parse

/-! ## Histories -/

/-- What a session is asked. -/
inductive Call where
  | text (mode : Mode) (source : String)
  | reset
  deriving DecidableEq

/-- The call ends, with a status if it is about a text, and leaves the session `next`. -/
inductive Answers (session : Session) : Call → Option Status → Session → Prop
  | text {bound : Nat} {mode : Mode} {source : String} {status : Status} {next : Session} :
      session.process bound mode source = some (status, next) →
      Answers session (.text mode source) (some status) next
  | reset : Answers session .reset none session.reset

/-- A call that has ended. -/
structure Exchange where
  before : Session
  call : Call
  status : Option Status
  after : Session

/-- The errors that a call has added to the log. -/
def Exchange.reported (x : Exchange) : List Diagnostic :=
  x.after.log.diagnostics.drop x.before.log.diagnostics.length

/-- Calls on a session, each on what the one before has left; the latest stands last. -/
inductive History (start : Session) : List Exchange → Session → Prop
  | start : History start [] start
  | call {xs : List Exchange} {s next : Session} {call : Call} {status : Option Status} :
      History start xs s → s.Answers call status next →
      History start (xs ++ [⟨s, call, status, next⟩]) next

/-- The errors that were reported since the last reset. -/
def sinceReset (xs : List Exchange) : List Diagnostic :=
  xs.foldl (fun ds x => if x.call = .reset then [] else ds ++ x.reported) []

theorem sinceReset_concat (xs : List Exchange) (x : Exchange) : sinceReset (xs ++ [x]) =
    if x.call = .reset then [] else sinceReset xs ++ x.reported := by
  rw [sinceReset, List.foldl_append]
  rfl

variable {start s next : Session} {xs ys : List Exchange} {x : Exchange}

theorem History.concat (h : History start (xs ++ [x]) s) :
    History start xs x.before ∧ x.before.Answers x.call x.status x.after := by
  generalize hzs : xs ++ [x] = zs at h
  cases h with
  | start => simp at hzs
  | call hxs hcall =>
    obtain ⟨rfl, hx⟩ := List.append_inj' hzs rfl
    obtain rfl := List.singleton_inj.mp hx
    exact ⟨hxs, hcall⟩

theorem History.take (h : History start (xs ++ ys) s) : ∃ t, History start xs t := by
  induction ys using List.reverseRecOn generalizing s with
  | nil => exact ⟨s, by simpa using h⟩
  | append_singleton ys y ih =>
    rw [← List.append_assoc] at h
    exact ih h.concat.1

/-! ## One call -/

variable {mode : Mode} {source : String} {status : Status}

theorem Answers.text_cases (h : s.Answers (.text mode source) (some status) next) :
    (s.Blocks source ∧ status = .staticError ∧
      next = { s with log := s.log.emitAll (Program.ofSource source).2 }) ∨
    (¬ s.Blocks source ∧ status = .success ∧ next.log = s.log ∧
      (mode = .trees → next.state.chain = s.state.chain)) ∨
    (¬ s.Blocks source ∧ status = .runtimeError ∧ mode = .execute ∧
      ∃ e : Eval.Error, next.log = s.log.emit e.diagnostic) := by
  cases h with
  | @text bound _ _ _ _ h =>
    by_cases hb : s.Blocks source
    · rw [s.process_blocked hb] at h
      cases h
      exact .inl ⟨hb, rfl, rfl⟩
    · obtain ⟨hlog, hnone⟩ := s.not_blocks_iff.mp hb
      obtain ⟨ss, hss⟩ := exists_of_ofSource hnone
      cases mode with
      | execute =>
        rw [process, s.run_eq hlog hss] at h
        rcases hrun : Stmt.execAll bound ss s.state with - | ⟨e | u, t⟩ <;> rw [hrun] at h
        · cases h
        · cases h
          exact .inr (.inr ⟨hb, rfl, rfl, e, rfl⟩)
        · cases h
          exact .inr (.inl ⟨hb, rfl, rfl, fun hmode => by cases hmode⟩)
      | trees =>
        rw [process, s.dump_eq hlog hss] at h
        cases h
        have hchain : ∀ (ts : List Stmt) (t : Eval.State),
            (ts.foldl (fun t u => t.println u.text) t).chain = t.chain := by
          intro ts
          induction ts with
          | nil => exact fun _ => rfl
          | cons u ts ih => exact fun t => ih _
        exact .inr (.inl ⟨hb, rfl, rfl, fun _ => hchain ss s.state⟩)

theorem Answers.staticError_iff (h : s.Answers (.text mode source) (some status) next) :
    status = .staticError ↔ s.Blocks source := by
  rcases h.text_cases with ⟨hb, rfl, -⟩ | ⟨hb, rfl, -⟩ | ⟨hb, rfl, -⟩ <;> simp [hb]

/-- A call adds errors to the log: those of the text, and behind them at most one that was met
while running, if no static error is pending. -/
theorem Answers.log_eq (h : s.Answers (.text mode source) (some status) next) :
    ∃ runtime : List Diagnostic,
      next.log = s.log.emitAll ((Program.ofSource source).2 ++ runtime) ∧
      (∀ d ∈ runtime, d.stage = .runtime) ∧ runtime.length ≤ 1 ∧
      (runtime ≠ [] ↔ status = .runtimeError) ∧ (runtime ≠ [] → ¬ s.Blocks source) := by
  rcases h.text_cases with ⟨-, rfl, rfl⟩ | ⟨hb, rfl, hlog, -⟩ | ⟨hb, rfl, -, e, hlog⟩
  · exact ⟨[], by simp, by simp, by simp, by simp, by simp⟩
  · obtain ⟨-, hnone⟩ := s.not_blocks_iff.mp hb
    exact ⟨[], by simp [hnone, hlog], by simp, by simp, by simp, by simp⟩
  · obtain ⟨-, hnone⟩ := s.not_blocks_iff.mp hb
    refine ⟨[e.diagnostic], ?_, by simp [Eval.Error.diagnostic, Diagnostic.runtime], by simp,
      by simp, fun _ => hb⟩
    rw [hnone, hlog, List.nil_append, Log.emitAll_cons, Log.emitAll_nil]

theorem Exchange.reported_eq {ds : List Diagnostic}
    (h : x.after.log = x.before.log.emitAll ds) : x.reported = ds := by
  simp [Exchange.reported, h, Log.emitAll]

theorem any_isStatic_runtime {ds : List Diagnostic} (h : ∀ d ∈ ds, d.stage = .runtime) :
    ds.any (·.isStatic) = false := by
  rw [List.any_eq_false]
  intro d hd
  simp [Diagnostic.isStatic, Stage.isStatic, h d hd]

theorem Exchange.static_reported (h : x.before.Answers (.text mode source) (some status) x.after) :
    x.reported.filter (·.isStatic) = (Program.ofSource source).2 := by
  obtain ⟨runtime, hlog, hruntime, -⟩ := h.log_eq
  have hnone : runtime.filter (·.isStatic) = [] := by
    simpa using any_isStatic_runtime hruntime
  rw [reported_eq hlog, List.filter_append, hnone, List.append_nil, List.filter_eq_self]
  exact fun d => isStatic_of_ofSource

/-! ## The log of a session -/

/-- The log holds what was reported since the last reset, and its flag tells whether an error of
that is static. -/
theorem History.log (hclean : start.log = start.log.reset) (h : History start xs s) :
    s.log.diagnostics = sinceReset xs ∧ s.log.staticFault = (sinceReset xs).any (·.isStatic) := by
  induction h with
  | start =>
    rw [hclean]
    exact ⟨rfl, rfl⟩
  | @call xs s next call status _ hcall ih =>
    rw [sinceReset_concat]
    cases hcall with
    | reset => exact ⟨rfl, rfl⟩
    | text h =>
      obtain ⟨runtime, hlog, -⟩ := (Answers.text h).log_eq
      rw [Exchange.reported_eq hlog, if_neg nofun, hlog, List.any_append, ← ih.2, ← ih.1]
      exact ⟨rfl, rfl⟩

theorem History.blocks_iff (hclean : start.log = start.log.reset) (h : History start xs s)
    (hx : x.before = s) (hcall : x.call = .text mode source)
    (hanswers : s.Answers (.text mode source) (some status) x.after) :
    s.Blocks source ↔ ∃ d ∈ sinceReset (xs ++ [x]), d.isStatic = true := by
  subst hx
  obtain ⟨-, hflag⟩ := h.log hclean
  obtain ⟨runtime, hlog, hruntime, -⟩ := hanswers.log_eq
  have hpending : (sinceReset (xs ++ [x])).any (·.isStatic) =
      (x.before.log.emitAll (Program.ofSource source).2).staticFault := by
    rw [sinceReset_concat, hcall, if_neg nofun, Exchange.reported_eq hlog, List.any_append,
      List.any_append, any_isStatic_runtime hruntime, Bool.or_false, ← hflag]
    rfl
  rw [x.before.blocks_iff, ← hpending, List.any_eq_true]

/-- What is promised of an exchange about a text, `pending` being the errors reported since the
last reset, those of the exchange among them. -/
structure Exchange.Gated (x : Exchange) (mode : Mode) (source : String)
    (pending : List Diagnostic) : Prop where
  /-- The log grows by the lexical errors of the text, then the syntactic ones, then at most one
  that was met while running, and by that one only if no static error is pending. -/
  appends : ∃ runtime : List Diagnostic,
    x.reported = (scan source).2 ++ (parse (scan source).1).diagnostics ++ runtime ∧
    x.after.log.diagnostics = x.before.log.diagnostics ++ x.reported ∧
    (∀ d ∈ (scan source).2, d.stage = .lexical) ∧
    (∀ d ∈ (parse (scan source).1).diagnostics, d.stage = .syntactic) ∧
    (∀ d ∈ runtime, d.stage = .runtime) ∧ runtime.length ≤ 1 ∧
    (runtime ≠ [] → ∀ d ∈ pending, d.isStatic = false)
  /-- The text is kept back exactly if a static error is pending. -/
  kept_iff : x.status = some .staticError ↔ ∃ d ∈ pending, d.isStatic = true
  /-- Then nothing is run. -/
  kept : x.status = some .staticError →
    x.after.state = x.before.state ∧ ∀ d ∈ x.reported, d.isStatic = true
  /-- Otherwise printing the trees succeeds and leaves the variables alone. -/
  trees : mode = .trees → x.status ≠ some .staticError →
    x.status = some .success ∧ x.after.state.chain = x.before.state.chain ∧ x.reported = []
  /-- Otherwise a run fails exactly if it reports an error, which was then met while running. -/
  fails_iff : mode = .execute → x.status ≠ some .staticError →
    (x.status = some .runtimeError ↔ ∃ d, x.reported = [d] ∧ d.stage = .runtime)
  succeeds_iff : mode = .execute → x.status ≠ some .staticError →
    (x.status = some .success ↔ x.reported = [])
  /-- In the same state, running a text and printing its trees report the same static errors. -/
  agrees : ∀ {mode' : Mode} {status : Status} {next : Session},
    x.before.Answers (.text mode' source) (some status) next →
      (Exchange.reported ⟨x.before, .text mode' source, some status, next⟩).filter (·.isStatic) =
        x.reported.filter (·.isStatic) ∧
      (some status = some Status.staticError ↔ x.status = some .staticError)
  /-- A text that is kept back in one mode is so in the other, whatever its loops would do. -/
  keeps : x.status = some .staticError → ∀ (bound : Nat) (mode' : Mode),
    x.before.process bound mode' source = some (.staticError, x.after)

theorem Exchange.gated_of_blocks_iff {pending : List Diagnostic} (hstatus : x.status = some status)
    (h : x.before.Answers (.text mode source) (some status) x.after)
    (hblocks : x.before.Blocks source ↔ ∃ d ∈ pending, d.isStatic = true) :
    x.Gated mode source pending := by
  -- Everything follows from whether the text is kept back, which the status tells.
  have hkept : x.status = some .staticError ↔ x.before.Blocks source := by
    rw [hstatus, Option.some.injEq, h.staticError_iff]
  obtain ⟨runtime, hlog, hruntime, hone, hfails, hfree⟩ := h.log_eq
  have hreported : x.reported = (Program.ofSource source).2 ++ runtime := reported_eq hlog
  have hclear : x.status ≠ some .staticError → x.reported = runtime := by
    intro hne
    obtain ⟨-, hnone⟩ := x.before.not_blocks_iff.mp (mt hkept.mpr hne)
    rw [hreported, hnone, List.nil_append]
  have hblocked : x.status = some .staticError → x.after =
      { x.before with log := x.before.log.emitAll (Program.ofSource source).2 } := by
    intro hst
    rcases h.text_cases with ⟨-, -, hnext⟩ | ⟨hb, -⟩ | ⟨hb, -⟩
    · exact hnext
    · exact absurd (hkept.mp hst) hb
    · exact absurd (hkept.mp hst) hb
  refine ⟨?_, hkept.trans hblocks, ?_, ?_, ?_, ?_, ?_, ?_⟩
  · refine ⟨runtime, hreported, ?_, fun d => stage_of_scan, fun d => stage_of_parse, hruntime, hone,
      fun hne d hd => ?_⟩
    · rw [hlog, hreported]
      rfl
    · rw [← Bool.not_eq_true]
      exact fun hstatic => hfree hne (hblocks.mpr ⟨d, hd, hstatic⟩)
  · intro hst
    have hafter := hblocked hst
    refine ⟨by rw [hafter], fun d hd => ?_⟩
    rw [reported_eq (congrArg Session.log hafter)] at hd
    exact isStatic_of_ofSource hd
  · intro hmode hne
    rcases h.text_cases with ⟨hb, -⟩ | ⟨-, rfl, hsame, hchain⟩ | ⟨-, -, rfl, -⟩
    · exact absurd (hkept.mpr hb) hne
    · refine ⟨hstatus, hchain hmode, reported_eq ?_⟩
      rw [hsame, Log.emitAll_nil]
    · cases hmode
  · intro _ hne
    rw [hclear hne, hstatus, Option.some.injEq, ← hfails]
    constructor
    · intro hsome
      obtain ⟨d, rfl⟩ := List.length_eq_one_iff.mp
        (Nat.le_antisymm hone (List.length_pos_iff.mpr hsome))
      exact ⟨d, rfl, hruntime d (by simp)⟩
    · rintro ⟨d, rfl, -⟩
      exact List.cons_ne_nil _ _
  · intro _ hne
    rw [hclear hne]
    rcases h.text_cases with ⟨hb, -⟩ | ⟨-, rfl, -⟩ | ⟨-, rfl, -⟩
    · exact absurd (hkept.mpr hb) hne
    · simpa [hstatus] using hfails
    · simpa [hstatus] using hfails
  · intro mode' status' next h'
    rw [static_reported (x := ⟨x.before, _, _, next⟩) h', static_reported h, hkept,
      Option.some.injEq, h'.staticError_iff]
    exact ⟨rfl, Iff.rfl⟩
  · intro hst bound mode'
    rw [hblocked hst]
    exact x.before.process_blocked (hkept.mp hst) bound mode'

/-- **Static errors gate running.** In every history of a session with a clean log, every exchange
about a text is gated by the static errors reported since the last reset. A reset forgets these
and leaves variables and printed text alone. -/
theorem gated_of_history (hclean : start.log = start.log.reset)
    (h : History start (xs ++ x :: ys) s) :
    (∀ mode source, x.call = .text mode source →
      x.Gated mode source (sinceReset (xs ++ [x]))) ∧
    (x.call = .reset → x.after.state = x.before.state ∧ x.after.log = x.after.log.reset ∧
      sinceReset (xs ++ [x]) = []) := by
  rw [List.append_cons] at h
  obtain ⟨t, ht⟩ := h.take
  obtain ⟨hxs, hcall⟩ := ht.concat
  refine ⟨fun mode source hx => ?_, fun hx => ?_⟩
  · obtain ⟨before, call, status, after⟩ := x
    obtain rfl : call = .text mode source := hx
    cases hcall with
    | text hprocess =>
      have hanswers := Answers.text hprocess
      exact Exchange.gated_of_blocks_iff rfl hanswers (hxs.blocks_iff hclean rfl rfl hanswers)
  · rw [sinceReset_concat, if_pos hx]
    obtain ⟨before, call, status, after⟩ := x
    obtain rfl : call = .reset := hx
    dsimp only at hcall ⊢
    cases hcall
    exact ⟨rfl, rfl, rfl⟩

/-- An error in one text keeps the next from being run. -/
theorem gated_of_history_pending : ∃ x y : Exchange, History {} [x, y] y.after ∧
    x.call = .text .execute "1" ∧ y.call = .text .execute "print 1;" ∧
    y.Gated .execute "print 1;" (sinceReset [x, y]) ∧ y.after = x.after := by
  have hfirst : ({} : Session).process 1 .execute "1" = some (.staticError,
      ⟨{}, ({} : Log).emit ⟨.syntactic, 1, .atEnd, "Expect ';' after expression."⟩⟩) := by
    decide +kernel
  have hsecond : (⟨{}, ({} : Log).emit ⟨.syntactic, 1, .atEnd, "Expect ';' after expression."⟩⟩ :
      Session).process 1 .execute "print 1;" = some (.staticError,
        ⟨{}, ({} : Log).emit ⟨.syntactic, 1, .atEnd, "Expect ';' after expression."⟩⟩) := by
    decide +kernel
  have hboth : History {} [_, _] _ := (History.start.call (.text hfirst)).call (.text hsecond)
  have hgated := @gated_of_history {} _ [_] [] _ rfl hboth
  exact ⟨_, _, hboth, rfl, rfl, hgated.1 _ _ rfl, rfl⟩

end Lox.Session
