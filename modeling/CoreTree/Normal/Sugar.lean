import CoreTree.Normal.Pending

/-! # Sugar

What each construct beyond the core stands for. `and`, `or`, `case` and default values are
put in simpler terms before their parts are normalized, so they join branches as `if` does.
Interpolation and the literals normalize their parts first and wrap the results in calls.
-/
namespace CoreTree
set_option autoImplicit false

/-- Room for the elements of an array literal: 16, or the next power of two. -/
def arrayCapacity (count : Nat) : Nat :=
  if count < 16 then 16 else Nat.pow 2 ((count - 1).log2 + 1)

namespace Pending

def save (t : Symbol) (value : Pending) : Pending := assign value.span (temp value.span t) value

/-- A type test of a variable may be made twice. -/
def isRepeatable : Node → Bool
  | .isA _ subject _ => subject.plainVar?.isSome
  | n => n.plainVar?.isSome

/-- `a and b` is `if a then b else a`, with `a` saved unless it may be evaluated twice. -/
def and (s : Span) (left right : Pending) : Pending where
  source := .logic s .and left.source right.source
  run :=
    if isRepeatable left.source then (cond s .whenTrue left (some right) (some left)).run
    else do
      let t ← Norm.freshTemp
      (cond s .whenTrue (save t left) (some right) (some (temp left.span t))).run

/-- `a or b` is `if a then a else b`, with `a` saved unless it is a variable. -/
def or (s : Span) (left right : Pending) : Pending where
  source := .logic s .or left.source right.source
  run :=
    if left.source.plainVar?.isSome then (cond s .whenTrue left (some left) (some right)).run
    else do
      let t ← Norm.freshTemp
      (cond s .whenTrue (save t left) (some (temp left.span t)) (some right)).run

def logic (s : Span) : LogicOp → Pending → Pending → Pending
  | .and => and s
  | .or => or s

/-- `pattern === scrutinee` -/
def matchTest (scrutinee pattern : Pending) : Pending :=
  call pattern.span (some pattern) .caseEq [scrutinee] none

/-- A clause applies if one of its patterns matches; one without patterns never does. -/
def clauseTest (s : Span) (scrutinee : Pending) : List Pending → Pending
  | [] => atom s (.bool false)
  | pattern :: patterns =>
    (patterns.map (matchTest scrutinee)).foldl
      (fun acc test => or (acc.span.merge test.span) acc test) (matchTest scrutinee pattern)

def clauseChain (s : Span) (scrutinee : Pending) (whens : List (When Pending))
    (other : Option Pending) : Pending :=
  let clause (w : When Pending) (rest : Option Pending) :=
    cond s .whenTrue (clauseTest s scrutinee w.patterns) w.body rest
  (whens.foldr (fun w rest => some (clause w rest)) other).getD (nil s)

/-- A subject that is read without effect is read again for each pattern. -/
def isScrutinee : Node → Bool
  | .atom _ (.field _) => true
  | n => n.plainVar?.isSome

/-- `case` tries its clauses in order; any other subject is saved first. -/
def choose (s : Span) (subject : Pending) (whens : List (When Pending)) (other : Option Pending) :
    Pending where
  source := .choose s subject.source
    (whens.map fun w => ⟨w.patterns.map source, w.body.map source⟩) (other.map source)
  run :=
    if isScrutinee subject.source then (clauseChain s subject whens other).run
    else do
      let t ← Norm.freshTemp
      (seq s [save t subject, clauseChain s (temp subject.span t) whens other]).run

/-- One definition for each number of arguments short of all: it passes its arguments on and
adds the default of the next parameter. `given` names the parameters that have arguments. -/
def forwarders (s : Span) (kind : DefKind) (name : Symbol) (given : List Symbol) :
    List (Param Pending) → List Pending
  | [] => []
  | next :: params =>
    let args := given.map (fun param => var s ⟨param, 0, false⟩) ++ [next.default.getD (nil s)]
    definePlain s kind name given (some (call s none name args none)) ::
      forwarders s kind name (given ++ [next.name]) params

/-- A definition with default values is one definition for each number of arguments it takes,
the fewest first. -/
def define (s : Span) (kind : DefKind) (name : Symbol) (params : List (Param Pending))
    (body : Option Pending) : Pending where
  source := .define s kind name (params.map fun p => ⟨p.name, p.default.map source⟩)
    (body.map source)
  run :=
    let whole := definePlain s kind name (params.map (·.name)) body
    if params.any (·.default.isSome) then
      let required := params.takeWhile (·.default.isNone)
      (seq s (forwarders s kind name (required.map (·.name))
        (params.dropWhile (·.default.isNone)) ++ [whole])).run
    else whole.run

def interp (s : Span) (pieces : List Pending) : Pending where
  source := .interp s (pieces.map source)
  run := do
    let builder := Node.send s (.globalConst s .stringBuilder) .newName []
    let filled := (← nodes pieces).foldl (fun acc piece => .send s acc .append [piece]) builder
    return ⟨.send s filled .toS [], false⟩

def range (s : Span) (first last : Pending) (exclusive : Bool) : Pending where
  source := .range s first.source last.source exclusive
  run := do
    let first ← first.node
    let last ← last.node
    return ⟨.send s (.globalConst s .range) .newName [first, last, .bool s exclusive], false⟩

def regex (s : Span) (text : Symbol) : Pending where
  source := .regex s text
  run := do
    let name ← Norm.onProgram (·.regexConstant text s)
    return ⟨.globalConst s name, false⟩

def arrayStatements (s : Span) (type : Node) (t : Symbol) (elements : List Node) : List Node :=
  let count := elements.length
  [.assign s (.temp s t) (.send s type .newName [.int s (arrayCapacity count)]),
    .send s (.temp s t) .setLength [.int s count]] ++
  elements.mapIdx (fun i e =>
    .send e.span (.send e.span (.temp e.span t) .buffer []) .indexSet [.int e.span i, e]) ++
  [.temp s t]

/-- Without a declared type the elements have their common type. An empty array of a declared
type needs no room. -/
def array (s : Span) (elements : List Pending) (type : Option ConstPath) : Pending where
  source := .array s (elements.map source) type
  run := do
    let elements ← nodes elements
    let arg := type.elim (.merged elements) .named
    let id ← Norm.onProgram (·.genericType .array [arg])
    let generic := Node.atom s (.generic id)
    if type.isSome && elements.isEmpty then
      return ⟨.send s generic .newName [.int s 0], false⟩
    let t ← Norm.freshTemp
    return ⟨.seq s (arrayStatements s generic t elements), false⟩

def entryNodes : List (HashEntry Pending) → Norm (List (HashEntry Node))
  | [] => return []
  | e :: entries => do
    let key ← e.key.node
    let value ← e.value.node
    return ⟨key, value⟩ :: (← entryNodes entries)

/-- The statements that fill a hash `t`, which starts out empty. -/
def hashStatements (s : Span) (empty : Node) (t : Symbol) (entries : List (HashEntry Node)) :
    List Node :=
  [.assign s (.temp s t) empty] ++
  entries.map (fun e =>
    let entry := e.key.span.merge e.value.span
    .send entry (.temp entry t) .indexSet [e.key, e.value]) ++
  [.temp s t]

def hash (s : Span) (entries : List (HashEntry Pending)) (types : Option HashTypes) :
    Pending where
  source := .hash s (entries.map fun e => ⟨e.key.source, e.value.source⟩) types
  run := do
    let entries ← entryNodes entries
    let args := types.elim [.merged (entries.map (·.key)), .merged (entries.map (·.value))]
      fun t => [.named t.key, .named t.value]
    let id ← Norm.onProgram (·.genericType .hash args)
    let empty := Node.send s (.atom s (.generic id)) .newName []
    if entries.isEmpty then return ⟨empty, false⟩
    let t ← Norm.freshTemp
    return ⟨.seq s (hashStatements s empty t entries), false⟩

/-! ## What the parts have in common

A property of pending trees reaches what sugar stands for if the constructs there hand it on.
-/

section

variable {P : Pending → Prop}

theorem forall_some {p : Pending} (h : P p) : ∀ q ∈ some p, P q := by
  rintro _ ⟨⟩
  exact h

theorem getD_of_forall {p : Pending} {o : Option Pending} (h : ∀ q ∈ o, P q) (hDefault : P p) :
    P (o.getD p) := by
  cases o with
  | none => exact hDefault
  | some q => exact h q rfl

theorem clauseChain_of_forall (s : Span) {scrutinee : Pending} {whens : List (When Pending)}
    {other : Option Pending} (hNil : P (nil s)) (hOther : ∀ p ∈ other, P p)
    (hClause : ∀ w ∈ whens, ∀ rest : Option Pending, (∀ p ∈ rest, P p) →
      P (cond s .whenTrue (clauseTest s scrutinee w.patterns) w.body rest)) :
    P (clauseChain s scrutinee whens other) := by
  refine getD_of_forall ?_ hNil
  induction whens with
  | nil => exact hOther
  | cons w whens ih =>
    have hRest := ih fun v hv => hClause v (.tail _ hv)
    exact forall_some (hClause w (.head _) _ hRest)

/-- The arguments that a definition passes on: its parameters, and the next default. -/
theorem forall_forwarded (s : Span) (given : List Symbol) {default : Option Pending}
    (hVar : ∀ x, P (var s ⟨x, 0, false⟩)) (hNil : P (nil s)) (hDefault : ∀ p ∈ default, P p) :
    ∀ p ∈ given.map (fun param => var s ⟨param, 0, false⟩) ++ [default.getD (nil s)], P p := by
  refine List.forall_mem_append.mpr ⟨fun p hp => ?_, ?_⟩
  · obtain ⟨param, -, rfl⟩ := List.mem_map.mp hp
    exact hVar param
  · exact List.forall_mem_singleton.mpr (getD_of_forall hDefault hNil)

theorem forall_forwarders (s : Span) (kind : DefKind) (name : Symbol) (given : List Symbol)
    {params : List (Param Pending)}
    (h : ∀ (given : List Symbol), ∀ next ∈ params, P (definePlain s kind name given
      (some (call s none name (given.map (fun param => var s ⟨param, 0, false⟩) ++
        [next.default.getD (nil s)]) none)))) :
    ∀ p ∈ forwarders s kind name given params, P p := by
  induction params generalizing given with
  | nil => exact nofun
  | cons next params ih =>
    have hRest := ih (given ++ [next.name]) fun given x hx => h given x (.tail _ hx)
    exact List.forall_mem_cons.mpr ⟨h given next (.head _), hRest⟩

end

end Pending

end CoreTree
