import CoreTree.Normal.OfNode
import CoreTree.Proofs.Renaming.Statements

/-! # Constructs side by side

Pending trees are twins if their heads are alike, as far as the normalizer looks at them, and their
actions agree. Each construct of twins makes twins.
-/
namespace CoreTree
set_option autoImplicit false

def Outcome.rename (g : Renaming) (o : Outcome) : Outcome := ⟨o.node.rename g, o.ends⟩

/-- Whatever is neither an atom nor a variable nor a type test is not looked into. -/
def Node.IsClosed : Node → Prop
  | .atom .. | .var .. | .isA .. => False
  | _ => True

namespace Pending

variable {m : Pending} {n : Node}

theorem target_eq_node (hSource : m.source = n) (h : ∀ s v, n ≠ .var s v) :
    m.target = m.node := by
  subst hSource
  unfold target
  split
  · rename_i hVar
    exact absurd hVar (h _ _)
  · rfl

theorem run_assign_const (s : Span) (value : Pending) {t : Span} {path : ConstPath}
    (hSource : m.source = .atom t (.const path)) :
    (assign s m value).run = Norm.inScope .empty value.node >>= fun n => do
      return ⟨.assign s (← m.target) n, false⟩ := by
  unfold assign
  rw [hSource]

theorem run_assign (s : Span) (value : Pending) (hSource : m.source = n)
    (h : ∀ t path, n ≠ .atom t (.const path)) :
    (assign s m value).run = value.node >>= fun n => do
      return ⟨.assign s (← m.target) n, false⟩ := by
  subst hSource
  unfold assign
  dsimp only
  split
  · rename_i hAtom
    exact absurd hAtom (h _ _)
  · rfl

end Pending

namespace Pairing

/-- What the normalizer asks about a tree before it normalizes it has the same answers. -/
inductive SameHead (P : Pairing) : Node → Node → Prop where
  | var (s : Span) {v : Var} (h : v.name ∈ P.names) :
    SameHead P (.var s v) (.var s { v with name := P.rename v.name })
  | atom (s : Span) (a : Atom) (g : Renaming) : SameHead P (.atom s a) (.atom s (a.rename g))
  | isA (s : Span) {n n' : Node} (type type' : ConstPath) (h : SameHead P n n') :
    SameHead P (.isA s n type) (.isA s n' type')
  | closed {n n' : Node} (hSpan : n'.span = n.span) (h : n.IsClosed) (h' : n'.IsClosed) :
    SameHead P n n'

variable {P : Pairing} {p p' q q' : Program}

namespace SameHead

variable {n n' : Node} (h : P.SameHead n n')
include h

theorem span : n'.span = n.span := by
  cases h with
  | closed hSpan => exact hSpan
  | _ => rfl

theorem isSome_plainVar? : n'.plainVar?.isSome = n.plainVar?.isSome := by
  cases h with
  | var s h =>
    unfold Node.plainVar?
    dsimp only
    split <;> rfl
  | atom | isA => rfl
  | closed _ h h' =>
    have hClosed : ∀ {m : Node}, m.IsClosed → m.plainVar? = none := by
      intro m hm
      cases m <;> first | rfl | exact hm.elim
    rw [hClosed h, hClosed h']

theorem isRepeatable : Pending.isRepeatable n' = Pending.isRepeatable n := by
  have hPlain := h.isSome_plainVar?
  cases h with
  | var | atom => exact hPlain
  | isA s type type' h => exact h.isSome_plainVar?
  | closed _ h h' =>
    have hClosed : ∀ {m : Node}, m.IsClosed → Pending.isRepeatable m = m.plainVar?.isSome := by
      intro m hm
      cases m <;> first | rfl | exact hm.elim
    rw [hClosed h, hClosed h', hPlain]

theorem isScrutinee : Pending.isScrutinee n' = Pending.isScrutinee n := by
  have hPlain := h.isSome_plainVar?
  cases h with
  | var | isA => exact hPlain
  | atom s a g => cases a <;> rfl
  | closed _ h h' =>
    have hClosed : ∀ {m : Node}, m.IsClosed → Pending.isScrutinee m = m.plainVar?.isSome := by
      intro m hm
      cases m <;> first | rfl | exact hm.elim
    rw [hClosed h, hClosed h', hPlain]

end SameHead

structure Twin (P : Pairing) (p p' : Program) (m m' : Pending) : Prop where
  head : P.SameHead m.source m'.source
  run : P.Agrees p p' m.run m'.run (P.Same Outcome.rename)

abbrev TwinOptions (P : Pairing) (p p' : Program) : Option Pending → Option Pending → Prop :=
  Option.Rel (P.Twin p p')

abbrev TwinLists (P : Pairing) (p p' : Program) : List Pending → List Pending → Prop :=
  List.Forall₂ (P.Twin p p')

variable {m m' : Pending} {ms ms' : List Pending} {o o' : Option Pending}

theorem Twin.later (h : P.Twin p p' m m') (hReaches : P.Reaches p p' q q') : P.Twin q q' m m' :=
  ⟨h.head, h.run.later hReaches⟩

theorem TwinOptions.later (h : P.TwinOptions p p' o o') (hReaches : P.Reaches p p' q q') :
    P.TwinOptions q q' o o' := by
  cases h with
  | none => exact .none
  | some h => exact .some (h.later hReaches)

theorem TwinLists.later (h : P.TwinLists p p' ms ms') (hReaches : P.Reaches p p' q q') :
    P.TwinLists q q' ms ms' := h.imp fun _ _ hTwin => hTwin.later hReaches

/-! ## Parts in order -/

theorem Twin.node (h : P.Twin p p' m m') :
    P.Agrees p p' m.node m'.node (P.Same Node.rename) :=
  h.run.bind fun _ _ _ _ _ ho => agrees_pure fun _ _ hr g hg =>
    congrArg Outcome.node (ho.later hr g hg)

theorem agrees_optionNode (h : P.TwinOptions p p' o o') :
    P.Agrees p p' (Pending.optionNode o) (Pending.optionNode o') (P.Same renameOption) := by
  cases h with
  | none => exact agrees_pure fun _ _ _ _ _ => rfl
  | some h => exact h.node.bind fun _ _ _ _ _ hn => agrees_pure fun _ _ hr => (hn.later hr).some

theorem agrees_nodes (h : P.TwinLists p p' ms ms') :
    P.Agrees p p' (Pending.nodes ms) (Pending.nodes ms') (P.Same renameList) := by
  induction ms generalizing ms' p p' with
  | nil =>
    cases h
    exact agrees_pure fun _ _ _ => same_nil
  | cons m ms ih =>
    cases h with
    | cons h hRest =>
      refine h.node.bind fun _ _ q q' hq hn => ?_
      refine (ih (TwinLists.later hRest hq)).bind fun _ _ r r' hr hns =>
        agrees_pure fun _ _ hu => ?_
      exact (hn.later (hr.trans hu)).cons (hns.later hu)

theorem Twin.target (h : P.Twin p p' m m') :
    P.Agrees p p' m.target m'.target (P.Same Node.rename) := by
  have hNode := h.node
  have hHead := h.head
  generalize hSource : m.source = n at hHead
  generalize hSource' : m'.source = n' at hHead
  cases hHead with
  | var s hv =>
    unfold Pending.target
    rw [hSource, hSource']
    exact (agrees_writeVar hv).bind fun _ _ _ _ _ hv' => agrees_pure fun _ _ hr g hg =>
      congrArg (Node.var s) (hv'.later hr g hg)
  | atom | isA =>
    rw [Pending.target_eq_node hSource (by rintro s v ⟨⟩),
      Pending.target_eq_node hSource' (by rintro s v ⟨⟩)]
    exact hNode
  | closed _ h h' =>
    rw [Pending.target_eq_node hSource (by rintro s v rfl; exact h),
      Pending.target_eq_node hSource' (by rintro s v rfl; exact h')]
    exact hNode

theorem agrees_targets (h : P.TwinLists p p' ms ms') :
    P.Agrees p p' (Pending.targets ms) (Pending.targets ms') (P.Same renameList) := by
  induction ms generalizing ms' p p' with
  | nil =>
    cases h
    exact agrees_pure fun _ _ _ => same_nil
  | cons m ms ih =>
    cases h with
    | cons h hRest =>
      refine h.target.bind fun _ _ q q' hq hn => ?_
      refine (ih (TwinLists.later hRest hq)).bind fun _ _ r r' hr hns =>
        agrees_pure fun _ _ hu => ?_
      exact (hn.later (hr.trans hu)).cons (hns.later hu)

theorem Same.ends {o o' : Outcome} (h : P.Same Outcome.rename p p' o o') (hLevel : P.Level p p') :
    o'.ends = o.ends :=
  Always.elim (fun g hg => h g hg ▸ rfl) hLevel

theorem Same.statements {o o' : Outcome} (h : P.Same Outcome.rename p p' o o') :
    P.Same renameList p p' o.node.statements o'.node.statements := fun g hg => by
  rw [h g hg, Outcome.rename, Node.statements_rename]

theorem agrees_statements (h : P.TwinLists p p' ms ms') :
    P.Agrees p p' (Pending.statements ms) (Pending.statements ms')
      fun q q' r r' => P.Same renameList q q' r.1 r'.1 ∧ r'.2 = r.2 := by
  induction ms generalizing ms' p p' with
  | nil =>
    cases h
    exact agrees_pure fun _ _ _ => ⟨same_nil, rfl⟩
  | cons m ms ih =>
    cases h with
    | cons h hRest =>
      refine h.run.bind fun o o' q q' hq ho => ?_
      rw [ho.ends hq.level]
      split
      · exact agrees_pure fun _ _ hr => ⟨ho.statements.later hr, rfl⟩
      · refine (ih (TwinLists.later hRest hq)).bind fun r r' u u' hu hr => ?_
        obtain ⟨hStmts, hEnds⟩ := hr
        exact agrees_pure fun _ _ hv =>
          ⟨(ho.statements.later (hu.trans hv)).append (hStmts.later hv), hEnds⟩

/-! ## Branches and blocks -/

theorem agrees_runBranch {start start' : Scope} (hStart : P.SameScope start start')
    (h : P.TwinOptions p p' o o') :
    P.Agrees p p' (Pending.runBranch start o) (Pending.runBranch start' o') P.SameEnds := by
  cases h with
  | none => exact agrees_pure fun _ _ _ => .none
  | some h =>
    refine (agrees_setScope hStart).bind fun _ _ q q' hq _ => ?_
    refine (h.run.later hq).bind fun out out' r r' hr hOut => ?_
    refine agrees_getScope.bind fun scope scope' u u' hu hScope => agrees_pure fun v v' hv => ?_
    refine .some ⟨fun g hg => ?_, hScope, hOut.ends hr.level⟩
    rw [hOut.later (hu.trans hv) g hg]
    exact out.node.toOption_rename

/-- The parameters are names of the tree. -/
structure TwinBlock (P : Pairing) (p p' : Program) (b b' : Block Pending) : Prop where
  params : b'.params = b.params.map P.rename
  known : ∀ x ∈ b.params, x ∈ P.names
  body : P.TwinOptions p p' b.body b'.body

def Block.rename (g : Renaming) : Block Node → Block Node := Block.map g.name (·.rename g)

theorem agrees_runBlock (s : Span) {b b' : Block Pending} (h : P.TwinBlock p p' b b') :
    P.Agrees p p' (Pending.runBlock s b) (Pending.runBlock s b') (P.Same Block.rename) := by
  refine agrees_getScope.bind fun before before' q q' hq hBefore => ?_
  obtain ⟨hHidden, hKnown, hBound⟩ := hBefore.bindParams P.increasing h.known
  rw [← h.params] at hHidden hBound
  refine (agrees_setScope hBound).bind fun _ _ r r' hr _ => ?_
  refine (agrees_runBranch hBound (h.body.later (hq.trans hr))).bind fun e e' u u' hu hEnd => ?_
  refine agrees_getScope.bind fun scope scope' v v' hv hScope => ?_
  have hNow := hScope.unbindParams P.increasing hKnown
  rw [← hHidden] at hNow
  have hBridges := hBefore.loopBridges P.increasing hNow
  refine (agrees_setScope (hNow.rewindBlock P.increasing hBridges)).bind fun _ _ w w' hw _ => ?_
  refine (agrees_close s (hEnd.later (hv.trans hw)) hBridges).bind
    fun body body' x x' hx hBody => ?_
  refine agrees_pure fun y y' hy g hg => ?_
  rw [hBody.later hy g hg, renameOption_eq_map, h.params]
  exact congrArg (Block.mk · _) (List.map_congr_left fun x hx =>
    (hy.level.name_of_mem hg (h.known x hx)).symm)

theorem TwinBlock.later {b b' : Block Pending} (h : P.TwinBlock p p' b b')
    (hReaches : P.Reaches p p' q q') : P.TwinBlock q q' b b' :=
  ⟨h.params, h.known, h.body.later hReaches⟩

abbrev TwinBlocks (P : Pairing) (p p' : Program) :
    Option (Block Pending) → Option (Block Pending) → Prop := Option.Rel (P.TwinBlock p p')

theorem TwinBlocks.later {b b' : Option (Block Pending)} (h : P.TwinBlocks p p' b b')
    (hReaches : P.Reaches p p' q q') : P.TwinBlocks q q' b b' := by
  cases h with
  | none => exact .none
  | some h => exact .some (h.later hReaches)

theorem agrees_optionBlock (s : Span) {b b' : Option (Block Pending)}
    (h : P.TwinBlocks p p' b b') :
    P.Agrees p p' (Pending.optionBlock s b) (Pending.optionBlock s b')
      (P.Same fun g => Option.map (Block.rename g)) := by
  cases h with
  | none => exact agrees_pure fun _ _ _ _ _ => rfl
  | some h =>
    exact (agrees_runBlock s h).bind fun _ _ _ _ _ hb => agrees_pure fun _ _ hr g hg =>
      congrArg some (hb.later hr g hg)

/-! ## The core vocabulary -/

section

variable {n n' : Node} {test test' : Pending} {body body' other other' : Option Pending}

theorem Same.outcome (h : P.Same Node.rename p p' n n') (ends : Bool) :
    P.Same Outcome.rename p p' ⟨n, ends⟩ ⟨n', ends⟩ := fun g hg => by
  rw [Outcome.rename, h g hg]

theorem twin_atom (hLevel : P.Level p p') (s : Span) {a a' : Atom}
    (h : P.Same Atom.rename p p' a a') : P.Twin p p' (.atom s a) (.atom s a') where
  head := by
    obtain ⟨g, hg⟩ := hLevel.exists_fits
    rw [h g hg]
    exact .atom s a g
  run := agrees_pure fun _ _ hq => (Same.outcome (fun g hg => by
    rw [h.later hq g hg, Node.rename_atom]) false)

theorem twin_temp (hLevel : P.Level p p') (s : Span) {t t' : Symbol}
    (h : P.Same Renaming.name p p' t t') : P.Twin p p' (.temp s t) (.temp s t') :=
  twin_atom hLevel s fun g hg => congrArg Atom.temp (h g hg)

theorem twin_nil (hLevel : P.Level p p') (s : Span) : P.Twin p p' (.nil s) (.nil s) :=
  twin_atom hLevel s fun _ _ => rfl

theorem twin_var (s : Span) {v : Var} (hv : v.name ∈ P.names) :
    P.Twin p p' (.var s v) (.var s { v with name := P.rename v.name }) where
  head := .var s hv
  run := (agrees_useVar s hv).bind fun _ _ _ _ _ hv' => agrees_pure fun _ _ hr =>
    Same.outcome (fun g hg => congrArg (Node.var s) (hv'.later hr g hg)) false

theorem twin_seq (s : Span) (h : P.TwinLists p p' ms ms') :
    P.Twin p p' (.seq s ms) (.seq s ms') where
  head := .closed rfl trivial trivial
  run := by
    refine (agrees_statements h).bind fun r r' q q' _ hr => agrees_pure fun u u' hu => ?_
    obtain ⟨nodes, ends⟩ := r
    obtain ⟨nodes', ends'⟩ := r'
    obtain ⟨hNodes, rfl⟩ := hr
    refine Same.outcome (fun g hg => ?_) _
    rw [hNodes.later hu g hg, Node.ofStatements_rename]

theorem twin_cond (s : Span) (form : CondForm) (hTest : P.Twin p p' test test')
    (hBody : P.TwinOptions p p' body body') (hOther : P.TwinOptions p p' other other') :
    P.Twin p p' (.cond s form test body other) (.cond s form test' body' other') where
  head := .closed rfl trivial trivial
  run := by
    have hBranches : ∀ {onTrue onTrue' onFalse onFalse' : Option Pending},
        P.TwinOptions p p' onTrue onTrue' → P.TwinOptions p p' onFalse onFalse' →
        P.Agrees p p' (Pending.cond s .whenTrue test onTrue onFalse).run
          (Pending.cond s .whenTrue test' onTrue' onFalse').run (P.Same Outcome.rename) := by
      intro onTrue onTrue' onFalse onFalse' hTrue hFalse
      refine hTest.node.bind fun n n' p₁ p₁' h₁ hn => ?_
      refine agrees_getScope.bind fun before before' p₂ p₂' h₂ hBefore => ?_
      refine (agrees_runBranch hBefore (hTrue.later (h₁.trans h₂))).bind
        fun thenEnd thenEnd' p₃ p₃' h₃ hThen => ?_
      have hStart : P.SameScope
          (thenEnd.elim before fun e => Scope.elseStart before e.scope)
          (thenEnd'.elim before' fun e => Scope.elseStart before' e.scope) := by
        cases hThen with
        | none => exact hBefore
        | some h => exact hBefore.elseStart P.increasing h.scope
      refine (agrees_runBranch hStart (hFalse.later (h₁.trans (h₂.trans h₃)))).bind
        fun elseEnd elseEnd' p₄ p₄' h₄ hElse => ?_
      obtain ⟨hThenBridges, hElseBridges, hJoined⟩ :=
        Scope.renamed_joinBranches P.increasing hBefore hThen.scope hStart hElse.scope
      refine (agrees_setScope hJoined).bind fun _ _ p₅ p₅' h₅ _ => ?_
      refine (agrees_close s (hThen.later (h₄.trans h₅)) hThenBridges).bind
        fun thenNode thenNode' p₆ p₆' h₆ hThenNode => ?_
      refine (agrees_close s (hElse.later (h₅.trans h₆)) hElseBridges).bind
        fun elseNode elseNode' p₇ p₇' h₇ hElseNode => agrees_pure fun p₈ p₈' h₈ => ?_
      rw [hThen.any_ends, hElse.any_ends]
      refine Same.outcome (fun g hg => ?_) _
      have hTestIn := hn.later (h₂.trans (h₃.trans (h₄.trans (h₅.trans (h₆.trans (h₇.trans h₈))))))
      rw [hTestIn g hg, hThenNode.later (h₇.trans h₈) g hg, hElseNode.later h₈ g hg,
        Node.rename_cond, renameOption_eq_map, renameOption_eq_map]
    cases form with
    | whenTrue => exact hBranches hBody hOther
    | whenFalse => exact hBranches hOther hBody

theorem twin_loop (s : Span) (hTest : P.Twin p p' test test')
    (hBody : P.TwinOptions p p' body body') :
    P.Twin p p' (.loop s test body) (.loop s test' body') where
  head := .closed rfl trivial trivial
  run := by
    refine agrees_getScope.bind fun before before' p₁ p₁' h₁ hBefore => ?_
    refine (hTest.later h₁).node.bind fun n n' p₂ p₂' h₂ hn => ?_
    refine agrees_getScope.bind fun entry entry' p₃ p₃' h₃ hEntry => ?_
    refine (agrees_runBranch hEntry (hBody.later (h₁.trans (h₂.trans h₃)))).bind
      fun e e' p₄ p₄' h₄ hEnd => ?_
    refine agrees_getScope.bind fun now now' p₅ p₅' h₅ hNow => ?_
    have hBodyBridges := hEntry.loopBridges P.increasing hNow
    have hTestBridges := (hBefore.loopBridges P.increasing hNow).filter_not_contains P.increasing
      hBodyBridges
    refine (agrees_setScope (hEntry.rewindLoop P.increasing hNow)).bind fun _ _ p₆ p₆' h₆ _ => ?_
    refine agrees_pure fun p₇ p₇' h₇ => Same.outcome (fun g hg => ?_) false
    have hTestIn := hn.later (h₃.trans (h₄.trans (h₅.trans (h₆.trans h₇))))
    have hBodyIn := h₇.level.closeLoop s (hEnd.later (h₅.trans (h₆.trans h₇)))
      (hBodyBridges.append hTestBridges)
    rw [hTestIn g hg, hBodyIn g hg, Node.rename_loop, renameOption_eq_map]

theorem twin_jump (s : Span) (kind : JumpKind) (h : P.TwinOptions p p' body body') :
    P.Twin p p' (.jump s kind body) (.jump s kind body') where
  head := .closed rfl trivial trivial
  run := (agrees_optionNode h).bind fun _ _ _ _ _ hn => agrees_pure fun _ _ hr =>
    Same.outcome (fun g hg => by
      rw [hn.later hr g hg, Node.rename_jump, renameOption_eq_map]) true

theorem twin_assign (s : Span) {value value' : Pending} (h : P.Twin p p' m m')
    (hValue : P.Twin p p' value value') :
    P.Twin p p' (.assign s m value) (.assign s m' value') where
  head := .closed rfl trivial trivial
  run := by
    have hRest : ∀ n n' q q', P.Reaches p p' q q' → P.Same Node.rename q q' n n' →
        P.Agrees q q' (do return (⟨.assign s (← m.target) n, false⟩ : Outcome))
          (do return ⟨.assign s (← m'.target) n', false⟩) (P.Same Outcome.rename) :=
      fun _ _ _ _ hq hn => (h.later hq).target.bind fun _ _ _ _ hr ht => agrees_pure fun _ _ hu =>
        ((ht.later hu).assign (hn.later (hr.trans hu)) s).outcome false
    have hPlain := hValue.node.bind hRest
    have hHead := h.head
    generalize hSource : m.source = n at hHead
    generalize hSource' : m'.source = n' at hHead
    cases hHead with
    | atom t a g =>
      cases a with
      | const path =>
        rw [Pending.run_assign_const s value hSource, Pending.run_assign_const s value' hSource']
        exact (hValue.node.inScope SymbolMap.renamed_empty).bind hRest
      | _ =>
        rw [Pending.run_assign s value hSource (by rintro t path ⟨⟩),
          Pending.run_assign s value' hSource' (by rintro t path ⟨⟩)]
        exact hPlain
    | var | isA =>
      rw [Pending.run_assign s value hSource (by rintro t path ⟨⟩),
        Pending.run_assign s value' hSource' (by rintro t path ⟨⟩)]
      exact hPlain
    | closed _ h h' =>
      rw [Pending.run_assign s value hSource (by rintro t path rfl; exact h),
        Pending.run_assign s value' hSource' (by rintro t path rfl; exact h')]
      exact hPlain

theorem twin_multi (s : Span) {values values' : List Pending} (h : P.TwinLists p p' ms ms')
    (hValues : P.TwinLists p p' values values') :
    P.Twin p p' (.multi s ms values) (.multi s ms' values') where
  head := .closed rfl trivial trivial
  run := by
    refine (agrees_nodes hValues).bind fun ns ns' q q' hq hns => ?_
    refine (agrees_targets (h.later hq)).bind fun ts ts' r r' hr hts =>
      agrees_pure fun u u' hu => ?_
    refine Same.outcome (fun g hg => ?_) false
    rw [hts.later hu g hg, hns.later (hr.trans hu) g hg, Node.rename_multi, renameList_eq_map,
      renameList_eq_map]

theorem twin_call (s : Span) {name name' : Symbol} {block block' : Option (Block Pending)}
    (hReceiver : P.TwinOptions p p' o o') (hName : P.Same Renaming.name p p' name name')
    (hArgs : P.TwinLists p p' ms ms') (hBlock : P.TwinBlocks p p' block block') :
    P.Twin p p' (.call s o name ms block) (.call s o' name' ms' block') where
  head := .closed rfl trivial trivial
  run := by
    refine (agrees_optionNode hReceiver).bind fun n n' p₁ p₁' h₁ hn => ?_
    refine (agrees_nodes (hArgs.later h₁)).bind fun ns ns' p₂ p₂' h₂ hns => ?_
    refine (agrees_optionBlock s (hBlock.later (h₁.trans h₂))).bind
      fun b b' p₃ p₃' h₃ hb => agrees_pure fun p₄ p₄' h₄ => Same.outcome (fun g hg => ?_) false
    have hLast := h₃.trans h₄
    rw [hn.later (h₂.trans hLast) g hg, hName.later (h₁.trans (h₂.trans hLast)) g hg,
      hns.later hLast g hg, hb.later h₄ g hg, Node.rename_call, renameOption_eq_map,
      renameList_eq_map]
    rfl

theorem twin_isA (s : Span) {type type' : ConstPath} (h : P.Twin p p' m m')
    (hType : P.Same ConstPath.rename p p' type type') :
    P.Twin p p' (.isA s m type) (.isA s m' type') where
  head := .isA s type type' h.head
  run := h.node.bind fun _ _ _ _ hq hn => agrees_pure fun _ _ hr =>
    Same.outcome (fun g hg => by
      rw [hn.later hr g hg, hType.later (hq.trans hr) g hg, Node.rename_isA]) false

theorem twin_definePlain (s : Span) (kind : DefKind) {name name' : Symbol} {params : List Symbol}
    (hName : P.Same Renaming.name p p' name name') (hParams : ∀ x ∈ params, x ∈ P.names)
    (h : P.TwinOptions p p' body body') :
    P.Twin p p' (.definePlain s kind name params body)
      (.definePlain s kind name' (params.map P.rename) body') where
  head := .closed rfl trivial trivial
  run := by
    refine ((agrees_optionNode h).inScope (Scope.renamed_ofParams P.increasing hParams)).bind
      fun n n' q q' hq hn => agrees_pure fun r r' hr => Same.outcome (fun g hg => ?_) false
    have hBody : (renameOption g n).bind Node.toOption = renameOption g (n.bind Node.toOption) := by
      cases n with
      | none => rfl
      | some n => exact n.toOption_rename
    have hRenamed : params.map P.rename = params.map g.name :=
      List.map_congr_left fun x hx => (hr.level.name_of_mem hg (hParams x hx)).symm
    rw [hn.later hr g hg, hName.later (hq.trans hr) g hg, hBody, Node.rename_define,
      renameOption_eq_map, hRenamed, List.map_map, List.map_map]
    rfl

end

end Pairing

end CoreTree
