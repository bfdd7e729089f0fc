import Lox.Proofs.Grammar.Else

/-!
# Moving the lines of tokens and trees

* `Token.mapLine`, `Expr.mapLines`, `Stmt.mapLines`: the same on other lines;
* `Stmt.endsOpen_mapLines`, `Stmt.nearestElse_mapLines`: the form of a statement has no lines;
* `Grammar.Expression.mapLines`, `Grammar.Declarations.mapLines`: tokens on other lines derive the
  same trees on those lines;
* `Grammar.Declarations.append`: programs one behind the other are a program.
-/

namespace Lox

/-- The token on another line. -/
def Token.mapLine (f : Nat → Nat) (t : Token) : Token := { t with line := f t.line }

/-- The name on another line. -/
def Name.mapLine (f : Nat → Nat) (n : Name) : Name := { n with line := f n.line }

@[simp] theorem Name.text_mapLine (f : Nat → Nat) (n : Name) : (n.mapLine f).text = n.text := rfl

/-- The expression with every line moved. -/
def Expr.mapLines (f : Nat → Nat) : Expr → Expr
  | literal v => literal v
  | grouping e => grouping (e.mapLines f)
  | unary op line e => unary op (f line) (e.mapLines f)
  | binary op line l r => binary op (f line) (l.mapLines f) (r.mapLines f)
  | logical op line l r => logical op (f line) (l.mapLines f) (r.mapLines f)
  | var n => var (n.mapLine f)
  | assign n e => assign (n.mapLine f) (e.mapLines f)

namespace Stmt

mutual

/-- The statement with every line moved. -/
def mapLines (f : Nat → Nat) : Stmt → Stmt
  | expression e => expression (e.mapLines f)
  | print e => print (e.mapLines f)
  | declare n initializer => declare (n.mapLine f) (initializer.map (·.mapLines f))
  | block ss => block (mapLinesAll f ss)
  | ifThen c s => ifThen (c.mapLines f) (s.mapLines f)
  | ifElse c s t => ifElse (c.mapLines f) (s.mapLines f) (t.mapLines f)
  | loop c s => loop (c.mapLines f) (s.mapLines f)

/-- The same for every statement of a list. -/
def mapLinesAll (f : Nat → Nat) : List Stmt → List Stmt
  | [] => []
  | s :: ss => s.mapLines f :: mapLinesAll f ss

end

theorem endsOpen_mapLines (f : Nat → Nat) : ∀ s : Stmt, (s.mapLines f).endsOpen = s.endsOpen
  | expression _ | print _ | declare _ _ | block _ | ifThen _ _ => rfl
  | ifElse _ _ t => by rw [mapLines, endsOpen, endsOpen, endsOpen_mapLines f t]
  | loop _ s => by rw [mapLines, endsOpen, endsOpen, endsOpen_mapLines f s]

mutual

theorem nearestElse_mapLines (f : Nat → Nat) : ∀ s : Stmt,
    (s.mapLines f).NearestElse ↔ s.NearestElse
  | expression _ | print _ | declare _ _ => .rfl
  | block ss => by
    rw [mapLines, NearestElse, NearestElse]
    exact nearestElseAll_mapLines f ss
  | ifThen c s => by
    rw [mapLines, NearestElse, NearestElse]
    exact nearestElse_mapLines f s
  | ifElse c s t => by
    rw [mapLines, NearestElse, NearestElse, endsOpen_mapLines, nearestElse_mapLines f s,
      nearestElse_mapLines f t]
  | loop c s => by
    rw [mapLines, NearestElse, NearestElse]
    exact nearestElse_mapLines f s

theorem nearestElseAll_mapLines (f : Nat → Nat) : ∀ ss : List Stmt,
    NearestElseAll (mapLinesAll f ss) ↔ NearestElseAll ss
  | [] => .rfl
  | s :: ss => by
    rw [mapLinesAll, NearestElseAll, NearestElseAll, nearestElse_mapLines f s,
      nearestElseAll_mapLines f ss]

end

end Stmt

namespace Grammar

variable (f : Nat → Nat)

theorem Atom.mapLines {t : Token} {e : Expr} (h : Atom t e) :
    Atom (t.mapLine f) (e.mapLines f) := by
  cases h with
  | ofFalse hk => exact .ofFalse hk
  | ofTrue hk => exact .ofTrue hk
  | ofNil hk => exact .ofNil hk
  | number hk => exact .number hk
  | string hk => exact .string hk
  | name hk => exact .name hk

theorem Expression.mapLines {g : Rung} {ts : List Token} {e : Expr} (h : Expression g ts e) :
    Expression g (ts.map (·.mapLine f)) (e.mapLines f) := by
  induction h with
  | atom ha => exact .atom (ha.mapLines f)
  | grouping hl _ hr ih =>
    rw [List.map_cons, List.map_append]
    exact .grouping hl ih hr
  | unary hk _ ih => exact .unary hk ih
  | binary _ hk _ ihl ihr =>
    rw [List.map_append, List.map_cons]
    exact .binary ihl hk ihr
  | logical _ hk _ ihl ihr =>
    rw [List.map_append, List.map_cons]
    exact .logical ihl hk ihr
  | assign hn hq _ ih => exact .assign hn hq ih
  | above _ ih => exact .above ih

mutual

theorem Statement.mapLines : ∀ {ts : List Token} {s : Stmt}, Statement ts s →
    Statement (ts.map (·.mapLine f)) (s.mapLines f)
  | _, _, .expression he ht => by
    rw [List.map_append]
    exact .expression (he.mapLines f) ht
  | _, _, .print hp he ht => by
    rw [List.map_cons, List.map_append]
    exact .print hp (he.mapLines f) ht
  | _, _, .block hl hds hr => by
    rw [List.map_cons, List.map_append]
    exact .block hl (Declarations.mapLines hds) hr
  | _, _, .ifThen hi hl hc hr hs => by
    rw [List.map_cons, List.map_cons, List.map_append, List.map_cons]
    exact .ifThen hi hl (hc.mapLines f) hr (Statement.mapLines hs)
  | _, _, .ifElse hi hl hc hr hs he ht => by
    rw [List.map_cons, List.map_cons, List.map_append, List.map_cons, List.map_append,
      List.map_cons]
    exact .ifElse hi hl (hc.mapLines f) hr (Statement.mapLines hs) he (Statement.mapLines ht)
  | _, _, .loop hw hl hc hr hs => by
    rw [List.map_cons, List.map_cons, List.map_append, List.map_cons]
    exact .loop hw hl (hc.mapLines f) hr (Statement.mapLines hs)

theorem Declaration.mapLines : ∀ {ts : List Token} {s : Stmt}, Declaration ts s →
    Declaration (ts.map (·.mapLine f)) (s.mapLines f)
  | _, _, .plain hv hn ht => .plain hv hn ht
  | _, _, .initialized hv hn hq he ht => by
    rw [List.map_cons, List.map_cons, List.map_cons, List.map_append]
    exact .initialized hv hn hq (he.mapLines f) ht
  | _, _, .statement hs => .statement (Statement.mapLines hs)

/-- Tokens on other lines derive the same program on those lines. -/
theorem Declarations.mapLines : ∀ {ts : List Token} {ss : List Stmt}, Declarations ts ss →
    Declarations (ts.map (·.mapLine f)) (Stmt.mapLinesAll f ss)
  | _, _, .nil => .nil
  | _, _, .cons hd hds => by
    rw [List.map_append]
    exact .cons (Declaration.mapLines hd) (Declarations.mapLines hds)

end

theorem Declarations.append {vs : List Token} {us : List Stmt} (hv : Declarations vs us) :
    ∀ {ts : List Token} {ss : List Stmt}, Declarations ts ss → Declarations (ts ++ vs) (ss ++ us)
  | _, _, .nil => hv
  | _, _, .cons hd hds => by
    rw [List.append_assoc]
    exact .cons hd (append hv hds)

end Grammar

end Lox
