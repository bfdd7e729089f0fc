import Lox.Diagnostic.Basic

/-!
# The log of reported errors

* `Log`: the errors reported since the last reset, and whether one of them was static or met
  while running;
* `Log.emit`, `Log.emitAll`: reporting (`emitAll_eq_foldl`);
* `Log.reset`, `Log.take`: a take leaves the flags as they are.
-/

namespace Lox

/-- Where reported errors go besides the log. -/
inductive Emitter where
  | capture
  | stderr
  deriving DecidableEq, Repr

/-- The errors reported so far, oldest first. -/
structure Log where
  emitter : Emitter := .capture
  diagnostics : List Diagnostic := []
  staticFault : Bool := false
  runtimeFault : Bool := false
  deriving DecidableEq, Repr

namespace Log

/-- Reports an error. -/
def emit (log : Log) (d : Diagnostic) : Log :=
  { log with
    diagnostics := log.diagnostics ++ [d]
    staticFault := log.staticFault || d.isStatic
    runtimeFault := log.runtimeFault || !d.isStatic }

/-- Reports several errors in order. -/
def emitAll (log : Log) (ds : List Diagnostic) : Log :=
  { log with
    diagnostics := log.diagnostics ++ ds
    staticFault := log.staticFault || ds.any (·.isStatic)
    runtimeFault := log.runtimeFault || ds.any (!·.isStatic) }

@[simp] theorem emitAll_nil (log : Log) : log.emitAll [] = log := by simp [emitAll]

theorem emitAll_cons (log : Log) (d : Diagnostic) (ds : List Diagnostic) :
    log.emitAll (d :: ds) = (log.emit d).emitAll ds := by
  simp [emitAll, emit, Bool.or_assoc]

theorem emitAll_eq_foldl (log : Log) (ds : List Diagnostic) :
    log.emitAll ds = ds.foldl emit log := by
  induction ds generalizing log with
  | nil => simp
  | cons d ds ih => rw [emitAll_cons, ih, List.foldl_cons]

/-- Some error has been reported since the last reset. -/
def hasFault (log : Log) : Bool := log.staticFault || log.runtimeFault

/-- Forgets errors and flags. -/
def reset (log : Log) : Log := { emitter := log.emitter }

/-- Hands out the errors; the flags stay. -/
def take (log : Log) : List Diagnostic × Log := (log.diagnostics, { log with diagnostics := [] })

/-- The texts of the errors, each followed by a newline. -/
def rendered (log : Log) : String := Diagnostic.render log.diagnostics

/-- Errors are kept for the program that embeds the log and shown nowhere else. -/
def captures (log : Log) : Bool := log.emitter == .capture

/-- What a reported error is answered with. -/
def guarantee : String := "error(s) reported"

end Log

end Lox
