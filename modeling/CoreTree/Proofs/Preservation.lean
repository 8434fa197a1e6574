import CoreTree.Normal.Normalize
import CoreTree.Proofs.Meaning.Total
import CoreTree.Proofs.Simulation.OfNode

/-! # Normalization preserves meaning

A tree as it is written runs by names, its normalized tree by versions. From locals that agree,
both make the same calls in the same order, leave the same instance variables and exit in the
same way with the same value, and the locals agree again. Conditionals alone may start with
variables that no version reaches. Where loops or blocks repeat code, every variable of the
tree has a version at the start, and then normalization also succeeds.
-/
namespace CoreTree
set_option autoImplicit false

variable {V : Type}

/-- Two runs that nobody outside can tell apart. `Q` compares the locals after a normal exit. -/
structure SameRun (a : Except (Exit V) V × Machine Symbol V)
    (b : Except (Exit V) V × Machine Cell V)
    (Q : (Symbol → V) → (Cell → V) → Prop) : Prop where
  exit : a.1 = b.1
  world : a.2.world = b.2.world
  locals : ∀ v, a.1 = .ok v → Q a.2.locals b.2.locals

theorem Alike.sameRun {E : Escape V} {Q : (Symbol → V) → (Cell → V) → Prop} {a b}
    (h : Alike E (fun (_ : V) m w => m.world = w.world ∧ Q m.locals w.locals) a b) :
    SameRun a b Q := by
  cases h with
  | value h => exact ⟨rfl, h.1, fun _ _ => h.2⟩
  | left _ h => exact ⟨rfl, E.world _ _ _ h, nofun⟩

namespace Scope

/-- For every variable that is known, the version that a read names has the variable's value. -/
def Matches (s : Scope) (named : Symbol → V) (versioned : Cell → V) : Prop :=
  ∀ x v, s.get? x = some v → versioned (x, v.read.getD 0) = named x

/-- Every variable in `X` has a version that reaches this point, with the variable's value. -/
def Holds (s : Scope) (X : Set Symbol) (named : Symbol → V) (versioned : Cell → V) : Prop :=
  ∀ x ∈ X, ∃ r, s.reads x = some r ∧ versioned (x, r) = named x

theorem get?_ofParams (params : List Symbol) (x : Symbol) :
    (ofParams params).get? x = if x ∈ params then some .fresh else none := by
  have hFold : ∀ (s : Scope), (params.foldl (fun s p => s.insert p .fresh) s).get? x =
      if x ∈ params then some .fresh else s.get? x := by
    induction params with
    | nil => simp
    | cons p ps ih =>
      intro s
      rw [List.foldl_cons, ih, SymbolMap.get?_insert]
      grind
  rw [ofParams, hFold, SymbolMap.get?_empty]

end Scope

theorem Setting.ready_of_sound {C : Setting V} {st : NormalState} (hSound : st.scope.Sound C.names)
    (hBound : C.again = true → st.scope.Bound C.names) : C.Ready (fun _ => none) st :=
  ⟨hSound, hBound, nofun⟩

/-! ## Conditionals -/

theorem Setting.agree_ofParams {C : Setting V} {params : List Symbol} {m : Machine Symbol V}
    {w : Machine Cell V} (hParams : ∀ x ∈ params, w.locals (x, 0) = m.locals x)
    (hUnset : ∀ x ∉ params, m.locals x = C.interp.nil ∧ ∀ v, w.locals (x, v) = C.interp.nil)
    (hWorld : m.world = w.world) : C.Agree (fun _ => none) (.ofParams params) m w where
  reads x _ r hr := by
    rw [Scope.reads, Scope.get?_ofParams] at hr
    split at hr
    · rename_i hMem
      cases hr
      exact hParams x hMem
    · cases hr
  unset x _ hr := by
    rw [Scope.reads, Scope.get?_ofParams] at hr
    split at hr
    · cases hr
    · rename_i hMem
      exact hUnset x hMem
  temps := nofun
  world := hWorld

/-- A tree of conditionals that normalizes in a scope of parameters keeps its meaning. A variable
that is not a parameter is `nil` at the start, in every version. -/
theorem conditionals_preserve_meaning (I : Interp V) (rounds : Nat) (answer : RequireHandler)
    {p : Program} {params : List Symbol} {n : Node} (hTree : n.Within .branches Set.univ)
    {o : Outcome} {st : NormalState}
    (hRun : (n.pending answer).run.run ⟨p, .ofParams params⟩ = .ok o st)
    {m : Machine Symbol V} {w : Machine Cell V}
    (hParams : ∀ x ∈ params, w.locals (x, 0) = m.locals x)
    (hUnset : ∀ x ∉ params, m.locals x = I.nil ∧ ∀ v, w.locals (x, v) = I.nil)
    (hWorld : m.world = w.world) :
    SameRun ((n.named I rounds).on m) ((o.node.versioned I rounds).on w) st.scope.Matches ∧
      ∃ v, ((n.named I rounds).on m).1 = .ok v ∨
        ((n.named I rounds).on m).1 = .error (.jump .ret v) := by
  let C : Setting V := ⟨I, rounds, false, Set.univ⟩
  have hSound : (Scope.ofParams params).Sound C.names := by
    intro x _ v r hv hr
    rw [Scope.get?_ofParams] at hv
    split at hv
    · cases hv
      cases hr
      exact Nat.one_pos
    · cases hv
  have hAdmits : C.Admits .branches := ⟨nofun, nofun⟩
  have hMeans : (n.pending answer).Means C (fun _ => none) (n.named I rounds) :=
    Node.means_pending answer hAdmits n hTree
  obtain ⟨_, _, hRelated⟩ :=
    (hMeans.simulates ⟨p, .ofParams params⟩ (C.ready_of_sound hSound nofun)).of_ok hRun
  have hRuns := hRelated m w (C.agree_ofParams hParams hUnset hWorld)
  constructor
  · refine (hRuns.mono fun _ m' w' ⟨_, hAgree⟩ => ⟨hAgree.world, ?_⟩).sameRun
    intro x v hv
    have hValue := hAgree.value (Set.mem_univ x)
    rwa [Scope.reads, hv] at hValue
  · have hTotal := n.total_named I rounds hTree m
    generalize (n.named I rounds).on m = a at hRuns hTotal ⊢
    generalize (C.run o.node).on w = b at hRuns
    cases hRuns with
    | value _ => exact ⟨_, .inl rfl⟩
    | @left e _ _ hLeaves _ =>
      cases e with
      | cut => exact absurd rfl hTotal
      | jump kind v =>
        cases kind with
        | ret => exact ⟨v, .inr rfl⟩
        | brk | next => exact hLeaves.elim

namespace Sample

/-- Values are atoms. A callee gives the number of events so far, but `nil` from the third on.
One with a block runs it with that number, twice, and gives what the second run gave. -/
def interp : Interp Atom where
  literal a := a
  truthy a := a != .nil && a != .bool false
  isA a _ := a
  pack as := as.headD .nil
  answer u := (if u.events.length < 3 then .int u.events.length else .nil, u.fields)
  reply _ given u := (if given.length < 2 then .run [.int u.events.length]
    else .done (given.headD .nil), u.fields)
  truthy_false := rfl

def flag : Symbol := ⟨20⟩

def total : Symbol := ⟨21⟩

def readVar (x : Symbol) : Node := .var .nowhere ⟨x, 0, false⟩

def write (x : Symbol) (value : Node) : Node := .assign .nowhere (readVar x) value

def ask (args : List Node) : Node := .call .nowhere none .append args none

/-- Nothing has happened yet; `flag` holds `true`. -/
def start {K : Type} (name : K → Symbol) : Machine K Atom where
  locals k := if name k = flag then .bool true else .nil
  temps _ := .nil
  world := ⟨fun _ => .nil, []⟩

def program : Program := .init .initial .empty []

/-- `if flag and ask() then total = 1 end ; unless total then return flag end ; total` -/
def conditional : Node := .seq .nowhere [
  .cond .nowhere .whenTrue (.logic .nowhere .and (readVar flag) (ask []))
    (some (write total (.int .nowhere 1))) none,
  .cond .nowhere .whenFalse (readVar total)
    (some (.jump .nowhere .ret (some (readVar flag)))) none,
  readVar total]

example : ((conditional.named interp 0).on (start id)).1 = .ok (.int 1) := rfl

theorem conditional_preserved : ∃ o st,
    (conditional.pending (answerRequire 0 none)).run.run ⟨program, .ofParams [flag]⟩ = .ok o st ∧
    (∀ x ∈ [flag], (start Prod.fst).locals (x, 0) = (start id).locals x) ∧
    SameRun ((conditional.named interp 0).on (start id))
      ((o.node.versioned interp 0).on (start Prod.fst)) st.scope.Matches ∧
    ∃ v, ((conditional.named interp 0).on (start id)).1 = .ok v ∨
      ((conditional.named interp 0).on (start id)).1 = .error (.jump .ret v) := by
  obtain ⟨o, st, hRun⟩ : ∃ o st, (conditional.pending (answerRequire 0 none)).run.run
      ⟨program, .ofParams [flag]⟩ = .ok o st := ⟨_, _, rfl⟩
  refine ⟨o, st, hRun, by simp [start], ?_⟩
  refine conditionals_preserve_meaning interp 0 _ ?_ hRun (by simp [start]) ?_ rfl
  · simp [conditional, write, readVar, ask, Node.Within, optionWithin, listWithin, Node.IsPlace,
      Atom.IsSource, Node.int]
  · intro x hx
    have hNe : x ≠ flag := by simpa using hx
    simp [start, hNe, interp, Interp.nil]

end Sample

/-! ## Loops and blocks -/

section Bound

variable {C : Setting V} {st : NormalState}

theorem Setting.ready_of_bound
    (h : ∀ x ∈ C.names, ∃ r write, st.scope.get? x = some ⟨some r, write⟩ ∧ r < write) :
    C.Ready (fun _ => none) st := by
  refine C.ready_of_sound (fun x hx v r hv hr => ?_) fun _ x hx => ?_
  · obtain ⟨r', write, hEntry, hLt⟩ := h x hx
    rw [hEntry] at hv
    cases hv
    cases hr
    exact hLt
  · obtain ⟨r, write, hEntry, -⟩ := h x hx
    rw [Scope.reads, hEntry]
    rfl

theorem Setting.not_unknown_of_bound
    (h : ∀ x ∈ C.names, ∃ r write, st.scope.get? x = some ⟨some r, write⟩ ∧ r < write) :
    ¬ C.Unknown st.scope := by
  rintro ⟨x, hx, hNone⟩
  obtain ⟨r, write, hEntry, _⟩ := h x hx
  rw [hNone] at hEntry
  cases hEntry

theorem Setting.agree_of_holds {s : Scope} {m : Machine Symbol V} {w : Machine Cell V}
    (hHolds : s.Holds C.names m.locals w.locals) (hWorld : m.world = w.world) :
    C.Agree (fun _ => none) s m w := by
  refine ⟨fun x hx r hr => ?_, fun x hx hr => ?_, nofun, hWorld⟩
  · obtain ⟨r', hr', hValue⟩ := hHolds x hx
    rw [hr] at hr'
    cases hr'
    exact hValue
  · obtain ⟨r, hr', _⟩ := hHolds x hx
    rw [hr] at hr'
    cases hr'

theorem Setting.Agree.holds {held : Held V} {s : Scope} {m : Machine Symbol V}
    {w : Machine Cell V} (h : C.Agree held s m w) (hBound : s.Bound C.names) :
    s.Holds C.names m.locals w.locals := by
  intro x hx
  obtain ⟨r, hr⟩ := Option.isSome_iff_exists.mp (hBound x hx)
  exact ⟨r, hr, h.reads x hx r hr⟩

end Bound

/-- Where variables are bound at the start, normalization succeeds, and the tree keeps its
meaning, whatever it repeats. -/
theorem Node.preserved_of_bound (I : Interp V) (rounds : Nat) (answer : RequireHandler)
    (F : Fragment) {X : Set Symbol} {n : Node} (hTree : n.Within F X) {st : NormalState}
    (hBound : ∀ x ∈ X, ∃ r write, st.scope.get? x = some ⟨some r, write⟩ ∧ r < write)
    {m : Machine Symbol V} {w : Machine Cell V} (hHolds : st.scope.Holds X m.locals w.locals)
    (hWorld : m.world = w.world) :
    ∃ o st', (n.pending answer).run.run st = .ok o st' ∧
      SameRun ((n.named I rounds).on m) ((o.node.versioned I rounds).on w)
        (st'.scope.Holds X) := by
  let C : Setting V := ⟨I, rounds, true, X⟩
  have hMeans : (n.pending answer).Means C (fun _ => none) (n.named I rounds) :=
    Node.means_pending answer ⟨fun _ => rfl, fun _ => rfl⟩ n hTree
  have hReady : C.Ready (fun _ => none) st := C.ready_of_bound hBound
  obtain ⟨o, st', hRun, hAdv, _, hRelated⟩ :=
    (hMeans.simulates st hReady).exists_ok (C.not_unknown_of_bound hBound)
  refine ⟨o, st', hRun, ?_⟩
  have hRuns := hRelated m w (C.agree_of_holds hHolds hWorld)
  exact (hRuns.mono fun _ m' w' ⟨_, hAgree⟩ =>
    ⟨hAgree.world, hAgree.holds (hAdv.scope.bound (hReady.bound rfl))⟩).sameRun

/-- `while` loops may stand anywhere in the tree, in tests, bodies and branches alike. If one
of the runs is cut off after so many rounds, so is the other, and up to there they are the same. -/
theorem loops_preserve_meaning (I : Interp V) (rounds : Nat) (answer : RequireHandler)
    {X : Set Symbol} {n : Node} (hTree : n.Within .withLoops X) {st : NormalState}
    (hBound : ∀ x ∈ X, ∃ r write, st.scope.get? x = some ⟨some r, write⟩ ∧ r < write)
    {m : Machine Symbol V} {w : Machine Cell V} (hHolds : st.scope.Holds X m.locals w.locals)
    (hWorld : m.world = w.world) :
    ∃ o st', (n.pending answer).run.run st = .ok o st' ∧
      SameRun ((n.named I rounds).on m) ((o.node.versioned I rounds).on w)
        (st'.scope.Holds X) :=
  Node.preserved_of_bound I rounds answer _ hTree hBound hHolds hWorld

namespace Sample

/-- `while total = ask(total) ; if flag then flag = nil else total = flag end end` -/
def repeated : Node := .loop .nowhere (write total (ask [readVar total]))
  (some (.cond .nowhere .whenTrue (readVar flag) (some (write flag (.nil .nowhere)))
    (some (write total (readVar flag)))))

example : ((repeated.named interp 3).on (start id)).1 = .ok .nil := rfl

example : ((repeated.named interp 2).on (start id)).1 = .error .cut := rfl

def locals : Set Symbol := {x | x = flag ∨ x = total}

theorem bound_locals : ∀ x ∈ locals, ∃ r write,
    (Scope.ofParams [flag, total]).get? x = some ⟨some r, write⟩ ∧ r < write := by
  rintro x (rfl | rfl) <;> exact ⟨0, 1, rfl, Nat.one_pos⟩

theorem holds_locals :
    (Scope.ofParams [flag, total]).Holds locals (start id).locals (start Prod.fst).locals := by
  rintro x (rfl | rfl) <;> exact ⟨0, rfl, rfl⟩

theorem repeated_preserved :
    (Scope.ofParams [flag, total]).Holds locals (start id).locals (start Prod.fst).locals ∧
    ∃ o st', (repeated.pending (answerRequire 0 none)).run.run
        ⟨program, .ofParams [flag, total]⟩ = .ok o st' ∧
      SameRun ((repeated.named interp 3).on (start id))
        ((o.node.versioned interp 3).on (start Prod.fst)) (st'.scope.Holds locals) := by
  refine ⟨holds_locals,
    loops_preserve_meaning interp 3 _ ?_ bound_locals holds_locals rfl⟩
  simp [repeated, write, readVar, ask, Node.Within, optionWithin, listWithin, Node.IsPlace,
    Atom.IsSource, Node.nil, locals, Fragment.withLoops]

end Sample

/-- Calls may be given blocks, whose parameters are no variables of the tree around them. The
callee runs its block as often as it likes, with arguments of its choice, and a `return` in a
block leaves the method. -/
theorem blocks_preserve_meaning (I : Interp V) (rounds : Nat) (answer : RequireHandler)
    {X : Set Symbol} {n : Node} (hTree : n.Within .withBlocks X) {st : NormalState}
    (hBound : ∀ x ∈ X, ∃ r write, st.scope.get? x = some ⟨some r, write⟩ ∧ r < write)
    {m : Machine Symbol V} {w : Machine Cell V} (hHolds : st.scope.Holds X m.locals w.locals)
    (hWorld : m.world = w.world) :
    ∃ o st', (n.pending answer).run.run st = .ok o st' ∧
      SameRun ((n.named I rounds).on m) ((o.node.versioned I rounds).on w)
        (st'.scope.Holds X) :=
  Node.preserved_of_bound I rounds answer _ hTree hBound hHolds hWorld

namespace Sample

def item : Symbol := ⟨22⟩

/-- `while flag ; ask() { |item| if flag then flag = total else return item end } end` -/
def collected : Node := .loop .nowhere (readVar flag) (some (.call .nowhere none .append []
  (some ⟨[item], some (.cond .nowhere .whenTrue (readVar flag)
    (some (write flag (readVar total))) (some (.jump .nowhere .ret (some (readVar item)))))⟩)))

example : ((collected.named interp 5).on (start id)).1 = .error (.jump .ret (.int 2)) := rfl

theorem collected_preserved :
    (Scope.ofParams [flag, total]).Holds locals (start id).locals (start Prod.fst).locals ∧
    ∃ o st', (collected.pending (answerRequire 0 none)).run.run
        ⟨program, .ofParams [flag, total]⟩ = .ok o st' ∧
      SameRun ((collected.named interp 5).on (start id))
        ((o.node.versioned interp 5).on (start Prod.fst)) (st'.scope.Holds locals) := by
  refine ⟨holds_locals,
    blocks_preserve_meaning interp 5 _ ?_ bound_locals holds_locals rfl⟩
  simp [collected, write, readVar, Node.Within, optionWithin, listWithin, Node.IsPlace,
    locals, Fragment.withBlocks, item, flag, total]

end Sample

end CoreTree
