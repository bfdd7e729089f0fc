import Lox.Prompt
import Lox.Proofs.Parse.Reads
import Lox.Proofs.Source.Lossless

/-!
# The statements of a text

* `ofSource_iff`: a text without errors and its statements;
* `Source.stage_of_scan`, `Parse.stage_of_parse`: the stage that reports an error of a text;
* `Session.Blocks`: a static error keeps a text from being run;
* `Session.process_blocked`, `Session.run_eq`, `Session.dump_eq`: what a session does with a text.
-/

namespace Lox

open Source Grammar
open Parse (parse Program)

/-! ## Errors -/

theorem Source.stage_of_scan {source : String} {d : Diagnostic} (h : d ∈ (scan source).2) :
    d.stage = .lexical := by
  rw [snd_scan] at h
  obtain ⟨⟨line, p⟩, -, hd⟩ := List.mem_filterMap.mp h
  obtain ⟨f, -, rfl⟩ := Option.map_eq_some_iff.mp hd
  rfl

theorem Parse.stage_of_parse {tokens : List Token} {d : Diagnostic}
    (h : d ∈ (parse tokens).diagnostics) : d.stage = .syntactic := by
  obtain ⟨f, -, rfl⟩ := List.mem_map.mp h
  rfl

theorem ofSource_eq (source : String) : Program.ofSource source =
    (parse (scan source).1, (scan source).2 ++ (parse (scan source).1).diagnostics) := rfl

theorem isStatic_of_ofSource {source : String} {d : Diagnostic}
    (h : d ∈ (Program.ofSource source).2) : d.isStatic = true := by
  rw [ofSource_eq, List.mem_append] at h
  rcases h with h | h
  · rw [Diagnostic.isStatic, stage_of_scan h]
    rfl
  · rw [Diagnostic.isStatic, Parse.stage_of_parse h]
    rfl

theorem any_isStatic_ofSource (source : String) :
    (Program.ofSource source).2.any (·.isStatic) = !(Program.ofSource source).2.isEmpty := by
  cases h : (Program.ofSource source).2 with
  | nil => rfl
  | cons d ds =>
    have hd : d ∈ (Program.ofSource source).2 := by simp [h]
    simp [isStatic_of_ofSource hd]

/-! ## Statements -/

theorem exists_of_ofSource {source : String} (h : (Program.ofSource source).2 = []) :
    ∃ ss : List Stmt, Program.ofSource source = (⟨ss.map some, []⟩, []) := by
  rw [ofSource_eq] at h ⊢
  have hparse := (List.append_eq_nil_iff.mp h).2
  have hfaults : (parse (scan source).1).faults = [] := List.map_eq_nil_iff.mp hparse
  obtain ⟨ss, hslots, -⟩ := Parse.declarations_of_parse hfaults
  refine ⟨ss, Prod.ext ?_ h⟩
  dsimp only
  rw [← hslots, ← hfaults]

/-- The statements of a text without errors are the program that its tokens make up. -/
theorem ofSource_iff {source : String} {ss : List Stmt} :
    Program.ofSource source = (⟨ss.map some, []⟩, []) ↔ (scan source).2 = [] ∧
      Declarations (pieceTokens source) ss ∧ Stmt.NearestElseAll ss := by
  have hbefore : Parse.before (scan source).1 = pieceTokens source := before_scan source
  rw [ofSource_eq]
  constructor
  · intro h
    obtain ⟨hparse, herrors⟩ := Prod.mk.inj h
    obtain ⟨ss', hslots, hds, hn⟩ := Parse.declarations_of_parse (by rw [hparse])
    rw [hparse] at hslots
    obtain rfl : ss = ss' := (List.map_inj_right fun _ _ => Option.some.inj).mp hslots
    exact ⟨(List.append_eq_nil_iff.mp herrors).1, hbefore ▸ hds, hn⟩
  · rintro ⟨hscan, hds, hn⟩
    rw [← hbefore] at hds
    rw [Parse.parse_of_declarations hds hn, hscan]
    rfl

namespace Session

variable (session : Session) {source : String}

/-! ## Texts with errors -/

/-- A static error, of the text or reported before, keeps the text from being run. -/
def Blocks (source : String) : Prop :=
  session.log.staticFault = true ∨ (Program.ofSource source).2 ≠ []

theorem blocks_iff : session.Blocks source ↔
    (session.log.emitAll (Program.ofSource source).2).staticFault = true := by
  simp [Blocks, Log.emitAll, any_isStatic_ofSource]

theorem not_blocks_iff : ¬ session.Blocks source ↔
    session.log.staticFault = false ∧ (Program.ofSource source).2 = [] := by
  simp [Blocks]

theorem read_blocked (h : session.Blocks source) : session.read source =
    (none, { session with log := session.log.emitAll (Program.ofSource source).2 }) := by
  simp only [read, session.blocks_iff.mp h, if_true]

/-- A text that is kept from being run adds its errors and does nothing else. -/
theorem process_blocked (h : session.Blocks source) (bound : Nat) (mode : Mode) :
    session.process bound mode source =
      some (.staticError,
        { session with log := session.log.emitAll (Program.ofSource source).2 }) := by
  cases mode with
  | execute => simp only [process, run, session.read_blocked h]
  | trees => simp only [process, dump, session.read_blocked h]

/-! ## Texts without errors -/

variable {ss : List Stmt}

theorem read_eq (hlog : session.log.staticFault = false)
    (hs : Program.ofSource source = (⟨ss.map some, []⟩, [])) :
    session.read source = (some ss, session) := by
  have hstatements : (⟨ss.map some, []⟩ : Program).statements? = some ss :=
    Parse.statements?_of_slots rfl
  simp [Session.read, hs, hlog, hstatements]

theorem run_eq (hlog : session.log.staticFault = false)
    (hs : Program.ofSource source = (⟨ss.map some, []⟩, [])) (bound : Nat) :
    session.run bound source = match Stmt.execAll bound ss session.state with
      | some (.ok (), state) => some (.success, { session with state })
      | some (.error e, state) => some (.runtimeError, ⟨state, session.log.emit e.diagnostic⟩)
      | none => none := by
  rw [run, session.read_eq hlog hs]
  dsimp only
  rw [interpret]
  rcases Stmt.execAll bound ss session.state with - | ⟨err | u, s⟩ <;> rfl

theorem dump_eq (hlog : session.log.staticFault = false)
    (hs : Program.ofSource source = (⟨ss.map some, []⟩, [])) :
    session.dump source = (.success,
      { session with state := ss.foldl (fun s t => s.println t.text) session.state }) := by
  rw [dump, session.read_eq hlog hs]

end Session

end Lox
