import Lox.Proofs.Lines.Run
import Lox.Proofs.Session.Text

/-!
# Texts joined by a newline

* `Diagnostic.mapLine`: an error on another line;
* `Source.Closed`: a text that does not end within a comment or string;
* `Source.pieceTokens_join`, `Source.snd_scan_join`, `Source.scan_join`: behind a closed text,
  another is read as if it were alone, some lines further down;
* `ofSource_join`: the statements of such a pair of texts;
* the main result: running two texts at once and one after the other.
-/

namespace Lox

/-- The error on another line. -/
def Diagnostic.mapLine (f : Nat → Nat) (d : Diagnostic) : Diagnostic := { d with line := f d.line }

namespace Source

/-- The text does not end within a comment or string. -/
def Closed (source : String) : Prop := ∀ p ∈ Piece.cut source.toList, p.isClosed = true

/-- The number of lines by which a text behind another and a newline is moved. -/
def below (source : String) (line : Nat) : Nat := line + (source.toList.count '\n' + 1)

variable {P : String}

theorem numbered_join (h : Closed P) (Q : String) :
    Piece.numbered 1 (Piece.cut (P ++ "\n" ++ Q).toList) =
      Piece.numbered 1 (Piece.cut P.toList) ++ (below P 1, .blank '\n') ::
        (Piece.numbered 1 (Piece.cut Q.toList)).map fun (l, p) => (below P l, p) := by
  have htext : (P ++ "\n" ++ Q).toList = P.toList ++ '\n' :: Q.toList := by
    simp [String.toList_append]
  have hline : 1 + P.toList.count '\n' + (Piece.blank '\n').newlines = below P 1 := by
    simp [Piece.newlines, Piece.text, below, Nat.add_assoc]
  rw [htext, Piece.cut_join h, Piece.numbered_append, Piece.texts_cut, Piece.numbered, hline,
    below, Piece.numbered_add]
  rfl

theorem pieceTokens_join (h : Closed P) (Q : String) : pieceTokens (P ++ "\n" ++ Q) =
    pieceTokens P ++ (pieceTokens Q).map (·.mapLine (below P)) := by
  have hmove : ∀ l p, Piece.token? (below P l) p = (Piece.token? l p).map (·.mapLine (below P)) :=
    fun l p => Piece.token?_add l _ p
  simp only [pieceTokens, numbered_join h, List.filterMap_append, List.filterMap_cons,
    List.filterMap_map, List.map_filterMap]
  simp only [Function.comp_def, hmove]
  rfl

theorem snd_scan_join (h : Closed P) (Q : String) : (scan (P ++ "\n" ++ Q)).2 =
    (scan P).2 ++ (scan Q).2.map (·.mapLine (below P)) := by
  have hmove : ∀ l p, Piece.diagnostic? (below P l) p =
      (Piece.diagnostic? l p).map (·.mapLine (below P)) := by
    intro l p
    unfold Piece.diagnostic?
    cases p.fault? <;> rfl
  simp only [snd_scan, numbered_join h, List.filterMap_append, List.filterMap_cons,
    List.filterMap_map, List.map_filterMap]
  simp only [Function.comp_def, hmove]
  rfl

theorem closed_of_notMem (hcomment : ∀ t, .openComment t ∉ Piece.cut P.toList)
    (hstring : ∀ t, .openString t ∉ Piece.cut P.toList) : Closed P := by
  intro p hp
  cases p with
  | openComment t => exact absurd hp (hcomment t)
  | openString t => exact absurd hp (hstring t)
  | _ => rfl

theorem endOn_join (P Q : String) : Token.endOn (1 + (P ++ "\n" ++ Q).toList.count '\n') =
    (Token.endOn (1 + Q.toList.count '\n')).mapLine (below P) := by
  have hcount : (P ++ "\n" ++ Q).toList.count '\n' =
      Q.toList.count '\n' + (P.toList.count '\n' + 1) := by
    simp [String.toList_append]
    omega
  rw [hcount, ← Nat.add_assoc]
  rfl

/-- **Scanning goes line by line.** A text that is not left within a comment or string is scanned
up to its end whatever follows on the next line, and what follows is scanned as if it stood alone,
but on lines further down by those of the text. Lines are numbers without bound: the statement is
about texts whose lines are within the range of the counter that numbers them. -/
theorem scan_join (hcomment : ∀ t, .openComment t ∉ Piece.cut P.toList)
    (hstring : ∀ t, .openString t ∉ Piece.cut P.toList) (Q : String) :
    (scan (P ++ "\n" ++ Q)).1 = (scan P).1.dropLast ++
      (scan Q).1.map (·.mapLine (· + (P.toList.count '\n' + 1))) ∧
    (scan (P ++ "\n" ++ Q)).2 = (scan P).2 ++
      (scan Q).2.map (·.mapLine (· + (P.toList.count '\n' + 1))) := by
  have hclosed := closed_of_notMem hcomment hstring
  refine ⟨?_, snd_scan_join hclosed Q⟩
  calc (scan (P ++ "\n" ++ Q)).1
      = pieceTokens P ++ ((pieceTokens Q).map (·.mapLine (below P)) ++
          [(Token.endOn (1 + Q.toList.count '\n')).mapLine (below P)]) := by
        rw [fst_scan, pieceTokens_join hclosed, endOn_join, List.append_assoc]
    _ = (scan P).1.dropLast ++ (scan Q).1.map (·.mapLine (below P)) := by
        rw [dropLast_scan, fst_scan Q, List.map_append]
        rfl

/-- A slash at the end of a line and one at the start of the next do not begin a comment. -/
theorem scan_join_slash : scan ("@ a /" ++ "\n" ++ "/ b\n#") =
    ([⟨.identifier, "a", none, 1⟩, ⟨.slash, "/", none, 1⟩, ⟨.slash, "/", none, 2⟩,
        ⟨.identifier, "b", none, 2⟩, .endOn 3],
      [.lexical 1 "Unexpected character: @", .lexical 3 "Unexpected character: #"]) := by
  have hcut : Piece.cut "@ a /".toList = [.stray '@', .blank ' ', .token .identifier ['a'],
      .blank ' ', .token .slash ['/']] := by decide +kernel
  obtain ⟨htokens, herrors⟩ :=
    scan_join (P := "@ a /") (by rw [hcut]; simp) (by rw [hcut]; simp) "/ b\n#"
  exact Prod.ext (htokens.trans (by decide +kernel)) (herrors.trans (by decide +kernel))

theorem closed_of_scan (h : (scan P).2 = []) (hopen : ∀ t, .openComment t ∉ Piece.cut P.toList) :
    Closed P := by
  rw [snd_scan, Piece.numbered_eq_zipIdx, List.filterMap_map, List.filterMap_eq_nil_iff] at h
  intro p hp
  obtain ⟨i, hi⟩ := List.mem_iff_getElem?.mp hp
  have hnone := h (p, i) (List.mem_zipIdx_iff_getElem?.mpr hi)
  cases p with
  | openComment t => exact absurd hp (hopen t)
  | openString t => cases hnone
  | _ => rfl

end Source

open Source Grammar
open Parse (parse Program)

theorem ofSource_join {P Q : String} {ss ts : List Stmt} (hc : Closed P)
    (hP : Program.ofSource P = (⟨ss.map some, []⟩, []))
    (hQ : Program.ofSource Q = (⟨ts.map some, []⟩, [])) :
    Program.ofSource (P ++ "\n" ++ Q) =
      (⟨(ss ++ Stmt.mapLinesAll (below P) ts).map some, []⟩, []) := by
  obtain ⟨hscanP, hds, hn⟩ := ofSource_iff.mp hP
  obtain ⟨hscanQ, hdt, hm⟩ := ofSource_iff.mp hQ
  refine ofSource_iff.mpr ⟨?_, ?_, ?_⟩
  · rw [snd_scan_join hc, hscanP, hscanQ]
    rfl
  · rw [pieceTokens_join hc]
    exact .append (hdt.mapLines _) hds
  · exact Stmt.nearestElseAll_append.mpr ⟨hn, (Stmt.nearestElseAll_mapLines _ _).mpr hm⟩

namespace Session

/-- **Running two texts at once.** If the first succeeds, the run goes on as a run of the second,
but an error of the second lies further down by the lines of the first; else it ends as a run of
the first alone. This too is about lines within the range of their counter. -/
theorem run_join (bound : Nat) {session : Session} {P Q : String}
    (hlog : session.log.staticFault = false)
    (hP : (Program.ofSource P).2 = []) (hQ : (Program.ofSource Q).2 = [])
    (hopen : ∀ t, .openComment t ∉ Piece.cut P.toList) :
    match session.run bound P with
    | some (.success, s) =>
      match s.run bound Q with
      | some (.runtimeError, t) => ∃ e : Eval.Error, t.log = s.log.emit e.diagnostic ∧
          session.run bound (P ++ "\n" ++ Q) = some (.runtimeError,
            ⟨t.state, s.log.emit (.runtime (e.line + (P.toList.count '\n' + 1)) e.fault.message)⟩)
      | ended => session.run bound (P ++ "\n" ++ Q) = ended
    | ended => session.run bound (P ++ "\n" ++ Q) = ended := by
  obtain ⟨ss, hss⟩ := exists_of_ofSource hP
  obtain ⟨ts, hts⟩ := exists_of_ofSource hQ
  have hjoin := ofSource_join (closed_of_scan (ofSource_iff.mp hss).1 hopen) hss hts
  rw [run_eq session hlog hss, run_eq session hlog hjoin, Stmt.execAll_append]
  rcases Stmt.execAll bound ss session.state with - | ⟨err | u, s⟩
  · rfl
  · rfl
  · dsimp only
    rw [run_eq ⟨s, session.log⟩ hlog hts, Stmt.execAll_mapLines]
    rcases Stmt.execAll bound ts s with - | ⟨err | u, t⟩
    · rfl
    · exact ⟨err, rfl, rfl⟩
    · rfl

/-- The second text uses on its first line a variable that no text declares. -/
theorem run_join_undefined : ({} : Session).run 1 ("var a;\n" ++ "\n" ++ "print b;") =
    some (.runtimeError, ⟨{ chain := ⟨[], ⟨[("a", .nil)]⟩⟩ },
      ({} : Log).emit (.runtime 3 "Undefined variable 'b'.")⟩) := by
  have hopen : ∀ t, .openComment t ∉ Piece.cut "var a;\n".toList := by
    have hcut : Piece.cut "var a;\n".toList = [.token .varKw ['v', 'a', 'r'], .blank ' ',
      .token .identifier ['a'], .token .semicolon [';'], .blank '\n'] := by decide +kernel
    rw [hcut]
    simp
  have hfirst : ({} : Session).run 1 "var a;\n" =
      some (.success, ⟨{ chain := ⟨[], ⟨[("a", .nil)]⟩⟩ }, {}⟩) := by decide +kernel
  have hsecond : (⟨{ chain := ⟨[], ⟨[("a", .nil)]⟩⟩ }, {}⟩ : Session).run 1 "print b;" =
      some (.runtimeError, ⟨{ chain := ⟨[], ⟨[("a", .nil)]⟩⟩ },
        ({} : Log).emit (.runtime 1 "Undefined variable 'b'.")⟩) := by decide +kernel
  have hjoin := @run_join 1 {} "var a;\n" "print b;" rfl (by decide +kernel) (by decide +kernel)
    hopen
  rw [hfirst] at hjoin
  dsimp only at hjoin
  rw [hsecond] at hjoin
  obtain ⟨e, he, hrun⟩ := hjoin
  simp only [Log.emit, Diagnostic.runtime, Eval.Error.diagnostic, Log.mk.injEq, List.nil_append,
    List.cons.injEq, Diagnostic.mk.injEq] at he
  obtain ⟨-, ⟨⟨-, hline, -, hmessage⟩, -⟩, -⟩ := he
  rw [hrun, ← hline, ← hmessage]
  decide

end Session

end Lox
