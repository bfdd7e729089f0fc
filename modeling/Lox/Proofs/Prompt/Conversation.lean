import Lox.Command
import Lox.Proofs.Eval.Adequate
import Lox.Proofs.Prompt.Cut
import Lox.Proofs.Session.Text

/-!
# Conversations

* `Session.process_mono`, `Session.process_state`: what the work on one text leaves;
* `Prompt.Heard`: the texts up to the line that ends a conversation;
* `Prompt.Answers`: each text is processed by a session of its own, on the scopes that the ones
  before it have left (`Answers.depth`, `answers_append`);
* `Prompt.Converses`: both together (`converses_without`: a line that changes nothing);
* `Prompt.run_iff`, `Prompt.folds_sessions`: what the command shows.
-/

namespace Lox

open Parse (Program)

/-- Shows the one and then the other. -/
def Transcript.append (shown next : Transcript) : Transcript where
  status := next.status
  stdout := shown.stdout ++ next.stdout
  stderr := shown.stderr ++ next.stderr

/-! ## One text -/

namespace Session

variable {session next : Session} {status : Status} {mode : Mode} {text : String}
  {bound bound' : Nat}

theorem process_mono (hle : bound ≤ bound') {r : Status × Session}
    (h : session.process bound mode text = some r) : session.process bound' mode text = some r := by
  by_cases hb : session.Blocks text
  · rwa [session.process_blocked hb] at h ⊢
  · obtain ⟨hlog, hnone⟩ := session.not_blocks_iff.mp hb
    obtain ⟨ss, hss⟩ := exists_of_ofSource hnone
    cases mode with
    | trees => exact h
    | execute =>
      rw [process, session.run_eq hlog hss] at h ⊢
      cases hrun : Stmt.execAll bound ss session.state with
      | none =>
        rw [hrun] at h
        cases h
      | some o => rwa [Stmt.execAll_mono hle ss _ o hrun, ← hrun]

theorem foldl_println (ss : List Stmt) (s : Eval.State) : ∃ out,
    ss.foldl (fun (s : Eval.State) t => s.println t.text) s =
      { s with output := s.output.append out } := by
  induction ss generalizing s with
  | nil => exact ⟨"", by simp⟩
  | cons t ss ih =>
    obtain ⟨out, h⟩ := ih (s.println t.text)
    refine ⟨t.text ++ "\n" ++ out, ?_⟩
    rw [List.foldl_cons, h, Eval.State.println, Output.println_eq, Output.append_append]

/-- The work on a text adds to what is printed, keeps the place where errors go and leaves every
scope that it enters. -/
theorem process_state (h : session.process bound mode text = some (status, next)) :
    (∃ out, next.state.output = session.state.output.append out) ∧
      next.log.emitter = session.log.emitter ∧
      next.state.chain.depth = session.state.chain.depth := by
  by_cases hb : session.Blocks text
  · rw [session.process_blocked hb] at h
    cases h
    exact ⟨⟨"", by simp⟩, rfl, rfl⟩
  · obtain ⟨hlog, hnone⟩ := session.not_blocks_iff.mp hb
    obtain ⟨ss, hss⟩ := exists_of_ofSource hnone
    cases mode with
    | trees =>
      rw [process, session.dump_eq hlog hss] at h
      cases h
      obtain ⟨out, hfold⟩ := foldl_println ss session.state
      rw [hfold]
      exact ⟨⟨out, rfl⟩, rfl, rfl⟩
    | execute =>
      rw [process, session.run_eq hlog hss] at h
      cases hrun : Stmt.execAll bound ss session.state with
      | none =>
        rw [hrun] at h
        cases h
      | some o =>
        obtain ⟨r, state⟩ := o
        obtain ⟨out, hruns, hout⟩ := Stmt.runsAll_of_execAll ss _ _ _ hrun
        have hdepth : state.chain.depth = session.state.chain.depth := by
          simpa [Chain.scopes, Chain.depth] using hruns.length_scopes
        rw [hrun] at h
        cases r with
        | ok | error =>
          cases h
          exact ⟨⟨out, hout⟩, rfl, hdepth⟩

end Session

namespace Prompt

/-! ## The texts of a conversation -/

/-- How a conversation ends. -/
inductive Ending where
  | ended
  | farewell
  | unreadable
  deriving DecidableEq

/-- The text is one of the words that end a conversation, but for white space. -/
def Farewell (text : String) : Prop :=
  Text.Trims text.toList "quit".toList ∨ Text.Trims text.toList "q".toList

/-- The text is white space. -/
def Blank (text : String) : Prop := Text.Trims text.toList []

/-- The texts of the lines up to the first that ends the conversation. The lines behind that one
may hold anything. -/
inductive Heard : List (List UInt8) → List String → Ending → Prop
  | ended : Heard [] [] .ended
  | unreadable {line : List UInt8} {rest : List (List UInt8)} :
      Text.decode? line = none → Heard (line :: rest) [] .unreadable
  | farewell {line : List UInt8} {rest : List (List UInt8)} {text : String} :
      Text.decode? line = some text → Farewell text → Heard (line :: rest) [] .farewell
  | text {line : List UInt8} {rest : List (List UInt8)} {text : String} {texts : List String}
      {e : Ending} : Text.decode? line = some text → ¬ Farewell text → Heard rest texts e →
      Heard (line :: rest) (text :: texts) e

/-! ## The answers -/

/-- What is shown for a line on the two outputs. -/
structure Shown where
  stdout : String := ""
  stderr : String := ""

/-- A session that has reported and printed nothing, on the given scopes. -/
def sessionOn (c : Chain) : Session := { state := { chain := c }, log := { emitter := .stderr } }

/-- The texts are processed one after the other, each by a session of its own on the scopes that
the one before it has left; nothing is done for blank ones. -/
inductive Answers (mode : Mode) : Chain → List String → List Shown → Chain → Prop
  | nil (c : Chain) : Answers mode c [] [] c
  | blank {c d : Chain} {text : String} {texts : List String} {xs : List Shown} : Blank text →
      Answers mode c texts xs d → Answers mode c (text :: texts) ({} :: xs) d
  | text {bound : Nat} {c d : Chain} {text : String} {texts : List String} {xs : List Shown}
      {status : Status} {s : Session} : ¬ Blank text →
      (sessionOn c).process bound mode text = some (status, s) →
      Answers mode s.state.chain texts xs d →
      Answers mode c (text :: texts) (⟨s.state.output.text, s.log.rendered⟩ :: xs) d

/-- What is shown for the lines of a conversation, and how it ends. -/
def Converses (mode : Mode) (lines : List (List UInt8)) (xs : List Shown) (e : Ending) : Prop :=
  ∃ texts d, Heard lines texts e ∧ Answers mode {} texts xs d

/-- All that a conversation shows: the question before every line and at the end, each time with
what the line has printed, all errors, and a last one if a line cannot be read. -/
def transcript (xs : List Shown) (e : Ending) : Transcript where
  status := if e = .unreadable then 74 else 0
  stdout := String.join (xs.map fun x => "> " ++ x.stdout) ++ "> "
  stderr := String.join (xs.map (·.stderr)) ++
    if e = .unreadable then
      "error: could not read input: stream did not contain valid UTF-8\n" else ""

variable {mode : Mode} {bound bound' : Nat} {lines rest before behind : List (List UInt8)}
  {line : List UInt8} {text : String} {texts us : List String} {e : Ending} {c d : Chain}
  {x : Shown} {xs ys : List Shown} {status : Status} {s : Session} {shown : Transcript}

/-! ## The prompt answers so -/

theorem mem_farewells_iff : Text.trim text.toList ∈ farewells ↔ Farewell text := by
  rw [Farewell, Text.trims_iff, Text.trims_iff, farewells, List.mem_cons, List.mem_singleton]

theorem blank_iff : Text.trim text.toList = [] ↔ Blank text := Text.trims_iff.symm

theorem clear_reset_process (h : (sessionOn c).process bound mode text = some (status, s)) :
    s.reset.clear = sessionOn s.state.chain := by
  obtain ⟨⟨out, hout⟩, hemitter, -⟩ := Session.process_state h
  obtain ⟨⟨chain, output⟩, log⟩ := s
  dsimp only at hout hemitter
  subst hout
  rw [Session.reset, Session.clear, Log.reset, hemitter]
  rfl

/-- The input that a line is. -/
def input (line : List UInt8) : Input := (Text.decode? line).elim .unreadable .line

theorem reply_unreadable (h : Text.decode? line = none) (session : Session) :
    reply bound mode session (input line) = some (.stop 74
      "error: could not read input: stream did not contain valid UTF-8\n") := by
  rw [input, h]
  rfl

theorem reply_farewell (hline : Text.decode? line = some text) (h : Farewell text)
    (session : Session) : reply bound mode session (input line) = some (.stop 0 "") := by
  rw [input, hline]
  exact if_pos (mem_farewells_iff.mpr h)

theorem reply_blank (hline : Text.decode? line = some text) (hf : ¬ Farewell text)
    (h : Blank text) (session : Session) :
    reply bound mode session (input line) = some (.more "" "" session) := by
  rw [input, hline]
  exact (if_neg (mt mem_farewells_iff.mp hf)).trans (if_pos (blank_iff.mpr h))

theorem reply_text (hline : Text.decode? line = some text) (hf : ¬ Farewell text)
    (h : ¬ Blank text) (session : Session) : reply bound mode session (input line) =
      (session.process bound mode text).map fun (_, session) =>
        .more session.state.output.text session.log.rendered session.reset.clear := by
  rw [input, hline]
  exact (if_neg (mt mem_farewells_iff.mp hf)).trans (if_neg (mt blank_iff.mp h))

theorem transcript_cons (x : Shown) (xs : List Shown) (e : Ending) (shown : Transcript) :
    shown.append (transcript (x :: xs) e) =
      { shown with
        stdout := shown.stdout ++ question ++ x.stdout
        stderr := shown.stderr ++ x.stderr }.append (transcript xs e) := by
  simp [Transcript.append, transcript, question, String.append_assoc]

theorem exists_of_run {result : Transcript}
    (h : run bound mode (sessionOn c) shown (lines.map input) = some result)
    (hshown : shown.status = 0) :
    ∃ texts e xs d, Heard lines texts e ∧ Answers mode c texts xs d ∧
      result = shown.append (transcript xs e) := by
  induction lines generalizing c shown with
  | nil =>
    cases h
    refine ⟨[], .ended, [], c, .ended, .nil c, ?_⟩
    simp [Transcript.append, transcript, question, hshown]
  | cons line lines ih =>
    rw [List.map_cons, run] at h
    cases hline : Text.decode? line with
    | none =>
      rw [reply_unreadable hline] at h
      cases h
      refine ⟨[], .unreadable, [], c, .unreadable hline, .nil c, ?_⟩
      simp [Transcript.append, transcript, question]
    | some text =>
      by_cases hf : Farewell text
      · rw [reply_farewell hline hf] at h
        cases h
        refine ⟨[], .farewell, [], c, .farewell hline hf, .nil c, ?_⟩
        simp [Transcript.append, transcript, question]
      by_cases hb : Blank text
      · rw [reply_blank hline hf hb] at h
        obtain ⟨texts, e, xs, d, hheard, hanswers, rfl⟩ := ih h hshown
        refine ⟨text :: texts, e, {} :: xs, d, .text hline hf hheard, .blank hb hanswers, ?_⟩
        rw [transcript_cons]
      · rw [reply_text hline hf hb] at h
        cases hprocess : (sessionOn c).process bound mode text with
        | none =>
          rw [hprocess] at h
          cases h
        | some o =>
          obtain ⟨status, s⟩ := o
          rw [hprocess, Option.map_some] at h
          dsimp only at h
          -- the other lines are heard by the session that the text leaves
          rw [clear_reset_process hprocess] at h
          obtain ⟨texts, e, xs, d, hheard, hanswers, rfl⟩ := ih h hshown
          refine ⟨text :: texts, e, _ :: xs, d, .text hline hf hheard,
            .text hb hprocess hanswers, ?_⟩
          rw [transcript_cons]

/-- Every conversation is a run of the prompt, under all bounds from some on. -/
theorem exists_run (hheard : Heard lines texts e) (hanswers : Answers mode c texts xs d) :
    ∃ bound, ∀ bound', bound ≤ bound' → ∀ shown : Transcript, shown.status = 0 →
      run bound' mode (sessionOn c) shown (lines.map input) =
        some (shown.append (transcript xs e)) := by
  induction hheard generalizing c xs with
  | ended =>
    cases hanswers
    refine ⟨0, fun bound' _ shown hshown => ?_⟩
    simp [run, Transcript.append, transcript, question, hshown]
  | unreadable hline =>
    cases hanswers
    refine ⟨0, fun bound' _ shown hshown => ?_⟩
    rw [List.map_cons, run, reply_unreadable hline]
    simp [Transcript.append, transcript, question]
  | farewell hline hf =>
    cases hanswers
    refine ⟨0, fun bound' _ shown hshown => ?_⟩
    rw [List.map_cons, run, reply_farewell hline hf]
    simp [Transcript.append, transcript, question]
  | text hline hf _ ih =>
    cases hanswers with
    | blank hb hrest =>
      obtain ⟨bound, hrun⟩ := ih hrest
      refine ⟨bound, fun bound' hle shown hshown => ?_⟩
      rw [List.map_cons, run, reply_blank hline hf hb, transcript_cons]
      exact hrun bound' hle _ hshown
    | @text first _ _ _ _ _ status s hb hprocess hrest =>
      obtain ⟨bound, hrun⟩ := ih hrest
      refine ⟨max first bound, fun bound' hle shown hshown => ?_⟩
      have hfirst := Session.process_mono (Nat.le_trans (Nat.le_max_left ..) hle) hprocess
      rw [List.map_cons, run, reply_text hline hf hb, hfirst, Option.map_some, transcript_cons]
      dsimp only
      rw [clear_reset_process hprocess]
      exact hrun bound' (Nat.le_trans (Nat.le_max_right ..) hle) _ hshown

theorem run_iff : (∃ bound, run bound mode (sessionOn {}) {} (lines.map input) = some shown) ↔
    ∃ xs e, Converses mode lines xs e ∧ shown = transcript xs e := by
  have hempty (t : Transcript) : ({} : Transcript).append t = t := by
    simp [Transcript.append]
  constructor
  · rintro ⟨bound, h⟩
    obtain ⟨texts, e, xs, d, hheard, hanswers, rfl⟩ := exists_of_run h rfl
    exact ⟨xs, e, ⟨texts, d, hheard, hanswers⟩, hempty _⟩
  · rintro ⟨xs, e, ⟨texts, d, hheard, hanswers⟩, rfl⟩
    obtain ⟨bound, hrun⟩ := exists_run hheard hanswers
    refine ⟨bound, ?_⟩
    rw [hrun bound (Nat.le_refl _) {} rfl, hempty]

/-! ## Lines that change nothing -/

theorem Answers.length (h : Answers mode c texts xs d) : xs.length = texts.length := by
  induction h with
  | nil => rfl
  | blank _ _ ih | text _ _ _ ih => rw [List.length_cons, List.length_cons, ih]

theorem Answers.depth (h : Answers mode c texts xs d) : d.depth = c.depth := by
  induction h with
  | nil => rfl
  | blank _ _ ih => exact ih
  | text _ hprocess _ ih => exact ih.trans (Session.process_state hprocess).2.2

theorem answers_append : Answers mode c (texts ++ us) xs d ↔ ∃ ys zs c', xs = ys ++ zs ∧
    Answers mode c texts ys c' ∧ Answers mode c' us zs d := by
  induction texts generalizing c xs with
  | nil =>
    constructor
    · intro h
      exact ⟨[], xs, c, rfl, .nil c, h⟩
    · rintro ⟨ys, zs, c', rfl, hnil, h⟩
      cases hnil
      exact h
  | cons text texts ih =>
    constructor
    · intro h
      cases h with
      | blank hb h =>
        obtain ⟨ys, zs, c', rfl, hys, hzs⟩ := ih.mp h
        exact ⟨{} :: ys, zs, c', rfl, .blank hb hys, hzs⟩
      | text hb hprocess h =>
        obtain ⟨ys, zs, c', rfl, hys, hzs⟩ := ih.mp h
        exact ⟨_ :: ys, zs, c', rfl, .text hb hprocess hys, hzs⟩
    · rintro ⟨ys, zs, c', rfl, hys, hzs⟩
      cases hys with
      | blank hb h => exact .blank hb (ih.mpr ⟨_, zs, c', rfl, h, hzs⟩)
      | text hb hprocess h => exact .text hb hprocess (ih.mpr ⟨_, zs, c', rfl, h, hzs⟩)

/-- The text is blank, or has static errors; it shows this. -/
def Inert (text : String) (x : Shown) : Prop :=
  Blank text ∧ x = {} ∨ ¬ Blank text ∧ (Program.ofSource text).2 ≠ [] ∧
    x = ⟨"", Diagnostic.render (Program.ofSource text).2⟩

theorem answers_inert (h : Inert text x) : Answers mode c (text :: us) xs d ↔
    ∃ zs, xs = x :: zs ∧ Answers mode c us zs d := by
  rcases h with ⟨hb, rfl⟩ | ⟨hb, herrors, rfl⟩
  · constructor
    · rintro (_ | ⟨_, h⟩ | ⟨hb', _, _⟩)
      · exact ⟨_, rfl, h⟩
      · exact absurd hb hb'
    · rintro ⟨zs, rfl, h⟩
      exact .blank hb h
  · have hblocked := Session.process_blocked (sessionOn c) (.inr herrors)
    constructor
    · rintro (_ | ⟨hb', _⟩ | ⟨_, hprocess, h⟩)
      · exact absurd hb' hb
      · rw [hblocked] at hprocess
        cases hprocess
        exact ⟨_, rfl, h⟩
    · rintro ⟨zs, rfl, h⟩
      exact .text hb (hblocked 0 mode) h

theorem heard_cons (hline : Text.decode? line = some text) (hf : ¬ Farewell text) :
    Heard (line :: rest) texts e ↔ ∃ us, texts = text :: us ∧ Heard rest us e := by
  constructor
  · intro h
    cases h with
    | unreadable hnone =>
      rw [hline] at hnone
      cases hnone
    | farewell hline' hf' =>
      rw [hline] at hline'
      cases hline'
      exact absurd hf' hf
    | text hline' _ h =>
      rw [hline] at hline'
      cases hline'
      exact ⟨_, rfl, h⟩
  · rintro ⟨us, rfl, h⟩
    exact .text hline hf h

/-- A conversation that ends before its last line ends so whatever stands there. -/
theorem Heard.stop (h : Heard lines texts e) (hlt : texts.length < lines.length) :
    ∀ rest, Heard (lines.take (texts.length + 1) ++ rest) texts e := by
  induction h with
  | ended => exact absurd hlt (Nat.lt_irrefl 0)
  | unreadable hline => exact fun _ => .unreadable hline
  | farewell hline hf => exact fun _ => .farewell hline hf
  | text hline hf _ ih => exact fun rest => .text hline hf (ih (Nat.lt_of_succ_lt_succ hlt) rest)

theorem Heard.length_lt (h : Heard lines texts e) (he : e ≠ .ended) :
    texts.length < lines.length := by
  induction h with
  | ended => exact absurd rfl he
  | unreadable | farewell => exact Nat.succ_pos _
  | text _ _ _ ih => exact Nat.succ_lt_succ (ih he)

/-- Lines are heard as far as the first that ends the conversation. -/
theorem heard_append : Heard (before ++ rest) texts e ↔
    (texts.length < before.length ∧ Heard before texts e) ∨
      ∃ ts us, texts = ts ++ us ∧ ts.length = before.length ∧ Heard before ts .ended ∧
        Heard rest us e := by
  induction before generalizing texts with
  | nil =>
    constructor
    · intro h
      exact .inr ⟨[], texts, rfl, rfl, .ended, h⟩
    · rintro (⟨hlt, -⟩ | ⟨ts, us, rfl, hlength, -, h⟩)
      · exact absurd hlt (Nat.not_lt_zero _)
      · rwa [List.eq_nil_of_length_eq_zero hlength]
  | cons line before ih =>
    constructor
    · intro h
      cases h with
      | unreadable hline => exact .inl ⟨Nat.succ_pos _, .unreadable hline⟩
      | farewell hline hf => exact .inl ⟨Nat.succ_pos _, .farewell hline hf⟩
      | text hline hf h =>
        rcases ih.mp h with ⟨hlt, h⟩ | ⟨ts, us, rfl, hlength, hts, hus⟩
        · exact .inl ⟨Nat.succ_lt_succ hlt, .text hline hf h⟩
        · exact .inr ⟨_ :: ts, us, rfl, congrArg (· + 1) hlength, .text hline hf hts, hus⟩
    · rintro (⟨hlt, h⟩ | ⟨ts, us, rfl, hlength, hts, hus⟩)
      · cases h with
        | unreadable hline => exact .unreadable hline
        | farewell hline hf => exact .farewell hline hf
        | text hline hf h =>
          exact .text hline hf (ih.mpr (.inl ⟨Nat.lt_of_succ_lt_succ hlt, h⟩))
      · cases hts with
        | text hline hf hts =>
          exact .text hline hf (ih.mpr (.inr ⟨_, us, rfl, Nat.succ.inj hlength, hts, hus⟩))

/-- Without a line that changes nothing the conversation shows the same for all other lines. -/
theorem converses_without (hline : Text.decode? line = some text) (hf : ¬ Farewell text)
    (hx : Inert text x) : Converses mode (before ++ line :: behind) xs e ↔
      (xs.length < before.length ∧ Converses mode (before ++ behind) xs e) ∨
        ∃ ys zs, xs = ys ++ x :: zs ∧ ys.length = before.length ∧
          Converses mode (before ++ behind) (ys ++ zs) e := by
  constructor
  · rintro ⟨texts, d, hheard, hanswers⟩
    rcases heard_append.mp hheard with ⟨hlt, h⟩ | ⟨ts, vs, rfl, hlength, hts, hvs⟩
    · exact .inl ⟨hanswers.length ▸ hlt, texts, d, heard_append.mpr (.inl ⟨hlt, h⟩), hanswers⟩
    · obtain ⟨us, rfl, hus⟩ := (heard_cons hline hf).mp hvs
      obtain ⟨ys, ws, c, rfl, hys, hws⟩ := answers_append.mp hanswers
      obtain ⟨zs, rfl, hzs⟩ := (answers_inert hx).mp hws
      exact .inr ⟨ys, zs, rfl, hys.length.trans hlength, ts ++ us, d,
        heard_append.mpr (.inr ⟨ts, us, rfl, hlength, hts, hus⟩),
        answers_append.mpr ⟨ys, zs, c, rfl, hys, hzs⟩⟩
  · rintro (⟨hlt, texts, d, hheard, hanswers⟩ |
      ⟨ys, zs, rfl, hlength, texts, d, hheard, hanswers⟩)
    · rw [hanswers.length] at hlt
      rcases heard_append.mp hheard with ⟨-, h⟩ | ⟨ts, us, rfl, hlength, -, -⟩
      · exact ⟨texts, d, heard_append.mpr (.inl ⟨hlt, h⟩), hanswers⟩
      · rw [List.length_append] at hlt
        omega
    · have htexts : before.length ≤ texts.length := by
        rw [← hanswers.length, List.length_append]
        omega
      rcases heard_append.mp hheard with ⟨hlt, -⟩ | ⟨ts, us, rfl, hts, hended, hus⟩
      · exact absurd htexts (Nat.not_le_of_lt hlt)
      · obtain ⟨ys', zs', c, hsplit, hys, hzs⟩ := answers_append.mp hanswers
        obtain ⟨rfl, rfl⟩ := List.append_inj hsplit (by rw [hlength, hys.length, hts])
        have hheard := (heard_cons hline hf).mpr ⟨us, rfl, hus⟩
        have hanswers := (answers_inert hx).mpr ⟨zs, rfl, hzs⟩
        exact ⟨ts ++ text :: us, d, heard_append.mpr (.inr ⟨ts, _, rfl, hts, hended, hheard⟩),
          answers_append.mpr ⟨ys, _, c, rfl, hys, hanswers⟩⟩

/-! ## The command -/

/-- The prompt is a fold of independent sessions. The bytes on its input are cut into lines in one
way, and the command shows what a conversation about these lines shows, if there is one. Every line
begins with the global scope alone. What stands behind the line that ends a conversation does not
matter, and a line that is blank or has static errors shows its errors and changes nothing for the
others. -/
theorem folds_sessions (mode : Mode) (read : String → Except ReadFailure String) :
    (∀ stdin, ∃ lines, Text.Cuts stdin lines ∧ ∀ lines', Text.Cuts stdin lines' → lines' = lines) ∧
    (∀ stdin lines shown, Text.Cuts stdin lines →
      ((∃ bound, Command.run bound read stdin (.prompt mode) = some shown) ↔
        ∃ xs e, Converses mode lines xs e ∧ shown = transcript xs e)) ∧
    (∀ texts xs d, Answers mode {} texts xs d → d.depth = 1) ∧
    (∀ lines xs e, Converses mode lines xs e → e ≠ .ended → xs.length < lines.length ∧
      ∀ rest, Converses mode (lines.take (xs.length + 1) ++ rest) xs e) ∧
    ∀ before line behind text x xs e, Text.decode? line = some text → ¬ Farewell text →
      Inert text x → (Converses mode (before ++ line :: behind) xs e ↔
        (xs.length < before.length ∧ Converses mode (before ++ behind) xs e) ∨
          ∃ ys zs, xs = ys ++ x :: zs ∧ ys.length = before.length ∧
            Converses mode (before ++ behind) (ys ++ zs) e) := by
  refine ⟨?_, ?_, ?_, ?_, fun _ _ _ _ _ _ _ => converses_without⟩
  · intro stdin
    refine ⟨Text.cutLines stdin, Text.cuts_cutLines stdin, fun lines h => ?_⟩
    exact (Text.cuts_iff.mp h).symm
  · intro stdin lines shown h
    rw [← Text.cuts_iff.mp h]
    exact run_iff
  · intro texts xs d h
    exact h.depth
  · rintro lines xs e ⟨texts, d, hheard, hanswers⟩ he
    have hlt := hheard.length_lt he
    rw [hanswers.length]
    exact ⟨hlt, fun rest => ⟨texts, d, hheard.stop hlt rest, hanswers⟩⟩

end Prompt

end Lox
