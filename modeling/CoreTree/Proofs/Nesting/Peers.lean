import CoreTree.Proofs.Renaming.Constructs
import Mathlib.Data.List.Forall2
import Mathlib.Data.Option.Basic

/-! # Parts that cannot be told apart

A construct runs its parts and asks a few questions about their trees first. Parts that run alike
and of which all these questions have the same answers may stand for each other in any construct.
-/
namespace CoreTree
set_option autoImplicit false

namespace Node

/-- What the normalizer sees of a tree before it normalizes it: its span, and the tree itself
where it is an atom, a variable, or a type test of a variable. -/
def face : Node → Node
  | .atom s a => .atom s a
  | .var s v => .var s v
  | .isA s subject type => if subject.plainVar?.isSome then .isA s subject type else .seq s []
  | n => .seq n.span []

theorem span_face (n : Node) : n.face.span = n.span := by
  cases n with
  | isA s subject type =>
    rw [face]
    split <;> rfl
  | _ => rfl

theorem plainVar?_face (n : Node) : n.face.plainVar? = n.plainVar? := by
  cases n with
  | isA s subject type =>
    rw [face]
    split <;> rfl
  | _ => rfl

theorem isRepeatable_face (n : Node) : Pending.isRepeatable n.face = Pending.isRepeatable n := by
  cases n with
  | isA s subject type =>
    rw [face]
    split
    · rfl
    · rename_i hSubject
      exact (Bool.eq_false_iff.mpr hSubject).symm
  | _ => rfl

theorem isScrutinee_face (n : Node) : Pending.isScrutinee n.face = Pending.isScrutinee n := by
  cases n with
  | isA s subject type =>
    rw [face]
    split <;> rfl
  | _ => rfl

theorem face_eq_var_iff {n : Node} {s : Span} {v : Var} : n.face = .var s v ↔ n = .var s v := by
  cases n with
  | isA t subject type =>
    rw [face]
    cases subject.plainVar?.isSome <;> exact iff_of_false nofun nofun
  | _ => simp [face]

theorem face_eq_atom_iff {n : Node} {s : Span} {a : Atom} : n.face = .atom s a ↔ n = .atom s a := by
  cases n with
  | isA t subject type =>
    rw [face]
    cases subject.plainVar?.isSome <;> exact iff_of_false nofun nofun
  | _ => simp [face]

end Node

namespace Pending

/-- The pending trees run alike, and no construct sees a difference between their trees. -/
structure Peers (p q : Pending) : Prop where
  run : p.run = q.run
  face : p.source.face = q.source.face

abbrev PeerOptions : Option Pending → Option Pending → Prop := Option.Rel Peers

abbrev PeerLists : List Pending → List Pending → Prop := List.Forall₂ Peers

theorem Peers.refl (p : Pending) : Peers p p := ⟨rfl, rfl⟩

variable {p q left left' right right' : Pending} {ps qs : List Pending} {o o' : Option Pending}

namespace Peers

variable (h : Peers p q)
include h

theorem span : p.span = q.span := by
  rw [Pending.span, ← Node.span_face, h.face, Node.span_face, Pending.span]

theorem plainVar? : p.source.plainVar? = q.source.plainVar? := by
  rw [← Node.plainVar?_face, h.face, Node.plainVar?_face]

theorem isRepeatable : Pending.isRepeatable p.source = Pending.isRepeatable q.source := by
  rw [← Node.isRepeatable_face, h.face, Node.isRepeatable_face]

theorem isScrutinee : Pending.isScrutinee p.source = Pending.isScrutinee q.source := by
  rw [← Node.isScrutinee_face, h.face, Node.isScrutinee_face]

theorem node : p.node = q.node := by
  unfold Pending.node
  rw [h.run]

theorem source_eq_var_iff (s : Span) (v : Var) : p.source = .var s v ↔ q.source = .var s v := by
  rw [← Node.face_eq_var_iff, h.face, Node.face_eq_var_iff]

theorem source_eq_atom_iff (s : Span) (a : Atom) : p.source = .atom s a ↔ q.source = .atom s a := by
  rw [← Node.face_eq_atom_iff, h.face, Node.face_eq_atom_iff]

/-- A variable is a variable on both sides, and the same one. -/
theorem target : p.target = q.target := by
  by_cases hVar : ∃ s v, p.source = .var s v
  · obtain ⟨s, v, hp⟩ := hVar
    unfold Pending.target
    rw [hp, (h.source_eq_var_iff s v).mp hp]
  · have hp : ∀ s v, p.source ≠ .var s v := fun s v hp => hVar ⟨s, v, hp⟩
    have hq : ∀ s v, q.source ≠ .var s v := fun s v hq => hp s v ((h.source_eq_var_iff s v).mpr hq)
    rw [target_eq_node rfl hp, target_eq_node rfl hq, h.node]

end Peers

/-! ## Parts in order -/

theorem PeerOptions.node (h : PeerOptions o o') : optionNode o = optionNode o' := by
  cases h with
  | none => rfl
  | some h => exact congrArg (· >>= fun n => pure (some n)) h.node

theorem PeerLists.nodes (h : PeerLists ps qs) : nodes ps = nodes qs := by
  induction h with
  | nil => rfl
  | cons h _ ih =>
    unfold Pending.nodes
    rw [h.node, ih]

theorem PeerLists.targets (h : PeerLists ps qs) : targets ps = targets qs := by
  induction h with
  | nil => rfl
  | cons h _ ih =>
    unfold Pending.targets
    rw [h.target, ih]

theorem PeerLists.statements (h : PeerLists ps qs) : statements ps = statements qs := by
  induction h with
  | nil => rfl
  | cons h _ ih =>
    unfold Pending.statements
    rw [h.run, ih]

theorem PeerOptions.runBranch (start : Scope) (h : PeerOptions o o') :
    runBranch start o = runBranch start o' := by
  cases h with
  | none => rfl
  | some h =>
    unfold Pending.runBranch
    dsimp only
    rw [h.run]

theorem PeerOptions.getD (h : PeerOptions o o') (hDefault : Peers p q) :
    Peers (o.getD p) (o'.getD q) := by
  cases h with
  | none => exact hDefault
  | some h => exact h

theorem PeerOptions.isSome (h : PeerOptions o o') : o.isSome = o'.isSome := by
  cases h <;> rfl

theorem PeerOptions.isNone (h : PeerOptions o o') : o.isNone = o'.isNone := by
  cases h <;> rfl

/-! ## The core vocabulary -/

theorem peers_seq (s : Span) (h : Pending.statements ps = Pending.statements qs) :
    Peers (seq s ps) (seq s qs) where
  run := by
    unfold seq
    rw [h]
  face := rfl

theorem peers_cond (s : Span) (form : CondForm) (hTest : Peers p q)
    {body body' : Option Pending} (hBody : PeerOptions body body') (hOther : PeerOptions o o') :
    Peers (cond s form p body o) (cond s form q body' o') where
  run := by
    unfold cond
    cases form with
    | whenTrue | whenFalse => simp only [hTest.node, hBody.runBranch, hOther.runBranch]
  face := rfl

theorem peers_loop (s : Span) (hTest : Peers p q) (hBody : PeerOptions o o') :
    Peers (loop s p o) (loop s q o') where
  run := by
    unfold loop
    simp only [hTest.node, hBody.runBranch]
  face := rfl

theorem peers_jump (s : Span) (kind : JumpKind) (h : PeerOptions o o') :
    Peers (jump s kind o) (jump s kind o') where
  run := by
    unfold jump
    rw [h.node]
  face := rfl

theorem peers_assign (s : Span) (hTarget : Peers left left') (hValue : Peers right right') :
    Peers (assign s left right) (assign s left' right') where
  run := by
    by_cases hConst : ∃ t path, left.source = .atom t (.const path)
    · obtain ⟨t, path, hLeft⟩ := hConst
      have hLeft' := (hTarget.source_eq_atom_iff t _).mp hLeft
      rw [run_assign_const s _ hLeft, run_assign_const s _ hLeft', hTarget.target, hValue.node]
    · have hLeft : ∀ t path, left.source ≠ .atom t (.const path) :=
        fun t path hLeft => hConst ⟨t, path, hLeft⟩
      have hLeft' : ∀ t path, left'.source ≠ .atom t (.const path) :=
        fun t path hLeft' => hLeft t path ((hTarget.source_eq_atom_iff t _).mpr hLeft')
      rw [run_assign s _ rfl hLeft, run_assign s _ rfl hLeft', hTarget.target, hValue.node]
  face := rfl

theorem peers_multi (s : Span) (hTargets : PeerLists ps qs) {values values' : List Pending}
    (hValues : PeerLists values values') : Peers (multi s ps values) (multi s qs values') where
  run := by
    unfold multi
    rw [hValues.nodes, hTargets.targets]
  face := rfl

/-- Blocks with the same parameters and bodies that are alike. -/
structure PeerBlock (b b' : Block Pending) : Prop where
  params : b.params = b'.params
  body : PeerOptions b.body b'.body

theorem peers_call (s : Span) (name : Symbol) (hReceiver : PeerOptions o o')
    (hArgs : PeerLists ps qs) {block block' : Option (Block Pending)}
    (hBlock : Option.Rel PeerBlock block block') :
    Peers (call s o name ps block) (call s o' name qs block') where
  run := by
    have hOption : optionBlock s block = optionBlock s block' := by
      cases hBlock with
      | none => rfl
      | some h =>
        unfold optionBlock runBlock
        simp only [h.params, h.body.runBranch]
    unfold call
    rw [hReceiver.node, hArgs.nodes, hOption]
  face := rfl

theorem peers_isA (s : Span) (type : ConstPath) (h : Peers p q) :
    Peers (isA s p type) (isA s q type) where
  run := by
    unfold isA
    rw [h.node]
  face := by
    have hPlain := h.plainVar?
    show Node.face (.isA s p.source type) = Node.face (.isA s q.source type)
    rw [Node.face, Node.face, ← hPlain]
    cases hVar : p.source.plainVar? with
    | none => rfl
    | some v =>
      obtain ⟨⟨t, hp⟩, -⟩ := (Node.plainVar?_eq_some_iff _ _).mp hVar
      obtain ⟨⟨u, hq⟩, -⟩ := (Node.plainVar?_eq_some_iff _ _).mp (hPlain.symm.trans hVar)
      have hSource : p.source = q.source := by
        have hFace := h.face
        rwa [hp, hq, Node.face, Node.face, ← hp, ← hq] at hFace
      rw [hSource]

theorem peers_definePlain (s : Span) (kind : DefKind) (name : Symbol) (params : List Symbol)
    (h : PeerOptions o o') :
    Peers (definePlain s kind name params o) (definePlain s kind name params o') where
  run := by
    unfold definePlain
    rw [h.node]
  face := rfl

/-! ## Logic and clauses -/

theorem peers_save (t : Symbol) (h : Peers p q) : Peers (save t p) (save t q) := by
  unfold save
  rw [h.span]
  exact peers_assign q.span (.refl _) h

theorem peers_and (s : Span) (hLeft : Peers left left') (hRight : Peers right right') :
    Peers (and s left right) (and s left' right') where
  run := by
    unfold Pending.and
    dsimp only
    rw [hLeft.isRepeatable, hLeft.span,
      (peers_cond s .whenTrue hLeft (.some hRight) (.some hLeft)).run]
    congr 2
    funext t
    exact (peers_cond s .whenTrue (peers_save t hLeft) (.some hRight) (.some (.refl _))).run
  face := rfl

theorem peers_or (s : Span) (hLeft : Peers left left') (hRight : Peers right right') :
    Peers (or s left right) (or s left' right') where
  run := by
    unfold Pending.or
    dsimp only
    rw [hLeft.plainVar?, hLeft.span,
      (peers_cond s .whenTrue hLeft (.some hLeft) (.some hRight)).run]
    congr 2
    funext t
    exact (peers_cond s .whenTrue (peers_save t hLeft) (.some (.refl _)) (.some hRight)).run
  face := rfl

theorem peers_logic (s : Span) (op : LogicOp) (hLeft : Peers left left')
    (hRight : Peers right right') : Peers (logic s op left right) (logic s op left' right') := by
  cases op with
  | and => exact peers_and s hLeft hRight
  | or => exact peers_or s hLeft hRight

theorem peers_matchTest (hScrutinee : Peers left left') (hPattern : Peers p q) :
    Peers (matchTest left p) (matchTest left' q) := by
  unfold matchTest
  rw [hPattern.span]
  exact peers_call q.span .caseEq (.some hPattern) (.cons hScrutinee .nil) .none

theorem peers_clauseTest (s : Span) (hScrutinee : Peers left left') (h : PeerLists ps qs) :
    Peers (clauseTest s left ps) (clauseTest s left' qs) := by
  cases h with
  | nil => exact .refl _
  | cons hPattern h =>
    have hTests := List.rel_map (fun _ _ hPattern => peers_matchTest hScrutinee hPattern) h
    refine List.rel_foldl (fun acc acc' hAcc test test' hTest => ?_)
      (peers_matchTest hScrutinee hPattern) hTests
    rw [hAcc.span, hTest.span]
    exact peers_or _ hAcc hTest

structure PeerWhen (w w' : When Pending) : Prop where
  patterns : PeerLists w.patterns w'.patterns
  body : PeerOptions w.body w'.body

theorem peers_clauseChain (s : Span) (hScrutinee : Peers left left')
    {whens whens' : List (When Pending)} (hWhens : List.Forall₂ PeerWhen whens whens')
    (hOther : PeerOptions o o') :
    Peers (clauseChain s left whens o) (clauseChain s left' whens' o') := by
  have hChain := List.rel_foldr (fun _ _ hw _ _ hRest => Option.Rel.some
    (peers_cond s .whenTrue (peers_clauseTest s hScrutinee hw.patterns) hw.body hRest))
    hOther hWhens
  exact PeerOptions.getD hChain (.refl _)

theorem peers_choose (s : Span) (hSubject : Peers left left') {whens whens' : List (When Pending)}
    (hWhens : List.Forall₂ PeerWhen whens whens') (hOther : PeerOptions o o') :
    Peers (choose s left whens o) (choose s left' whens' o') where
  run := by
    unfold choose
    dsimp only
    rw [hSubject.isScrutinee, hSubject.span, (peers_clauseChain s hSubject hWhens hOther).run]
    congr 2
    funext t
    have hChain := peers_clauseChain s (.refl (temp left'.span t)) hWhens hOther
    have hBoth : PeerLists _ _ := .cons (peers_save t hSubject) (.cons hChain .nil)
    exact (peers_seq s hBoth.statements).run
  face := rfl

/-! ## Default values -/

structure PeerParam (x x' : Param Pending) : Prop where
  name : x.name = x'.name
  default : PeerOptions x.default x'.default

section

variable {params params' : List (Param Pending)} (h : List.Forall₂ PeerParam params params')
include h

theorem PeerParam.map_name : params.map (·.name) = params'.map (·.name) := by
  induction h with
  | nil => rfl
  | cons hx _ ih => rw [List.map_cons, List.map_cons, hx.name, ih]

theorem PeerParam.any_default :
    params.any (·.default.isSome) = params'.any (·.default.isSome) := by
  induction h with
  | nil => rfl
  | cons hx _ ih =>
    rw [List.any_cons, List.any_cons, ih, hx.default.isSome]

theorem PeerParam.required : List.Forall₂ PeerParam (params.takeWhile (·.default.isNone))
    (params'.takeWhile (·.default.isNone)) := by
  induction h with
  | nil => exact .nil
  | cons hx _ ih =>
    rw [List.takeWhile_cons, List.takeWhile_cons, hx.default.isNone]
    split
    · exact .cons hx ih
    · exact .nil

theorem PeerParam.optional : List.Forall₂ PeerParam (params.dropWhile (·.default.isNone))
    (params'.dropWhile (·.default.isNone)) := by
  induction h with
  | nil => exact .nil
  | cons hx hRest ih =>
    rw [List.dropWhile_cons, List.dropWhile_cons, hx.default.isNone]
    split
    · exact ih
    · exact .cons hx hRest

theorem peers_forwarders (s : Span) (kind : DefKind) (name : Symbol) (given : List Symbol) :
    PeerLists (forwarders s kind name given params) (forwarders s kind name given params') := by
  induction h generalizing given with
  | nil => exact .nil
  | cons hx _ ih =>
    unfold forwarders
    rw [hx.name]
    have hGiven : PeerLists (given.map fun param => var s ⟨param, 0, false⟩)
        (given.map fun param => var s ⟨param, 0, false⟩) :=
      List.forall₂_same.mpr fun _ _ => .refl _
    have hArgs := List.rel_append hGiven
      (.cons (hx.default.getD (.refl (nil s))) .nil : PeerLists [_] [_])
    exact .cons (peers_definePlain s kind name given (.some (peers_call s name .none hArgs .none)))
      (ih _)

end

theorem peers_define (s : Span) (kind : DefKind) (name : Symbol)
    {params params' : List (Param Pending)}
    (hParams : List.Forall₂ PeerParam params params') (hBody : PeerOptions o o') :
    Peers (define s kind name params o) (define s kind name params' o') where
  run := by
    have hWhole := peers_definePlain s kind name (params'.map (·.name)) hBody
    have hAll := List.rel_append (peers_forwarders (PeerParam.optional hParams) s kind name
      ((params'.takeWhile (·.default.isNone)).map (·.name)))
      (.cons hWhole .nil : PeerLists [_] [_])
    unfold define
    dsimp only
    rw [PeerParam.any_default hParams, PeerParam.map_name hParams,
      PeerParam.map_name (PeerParam.required hParams), hWhole.run,
      (peers_seq s (PeerLists.statements hAll)).run]
  face := rfl

/-! ## Literals -/

theorem peers_interp (s : Span) (h : PeerLists ps qs) : Peers (interp s ps) (interp s qs) where
  run := by
    unfold interp
    rw [h.nodes]
  face := rfl

theorem peers_range (s : Span) (hFirst : Peers left left') (hLast : Peers right right')
    (exclusive : Bool) : Peers (range s left right exclusive) (range s left' right' exclusive) where
  run := by
    unfold range
    rw [hFirst.node, hLast.node]
  face := rfl

theorem peers_array (s : Span) (h : PeerLists ps qs) (type : Option ConstPath) :
    Peers (array s ps type) (array s qs type) where
  run := by
    unfold array
    rw [h.nodes]
  face := rfl

structure PeerEntry (e e' : HashEntry Pending) : Prop where
  key : Peers e.key e'.key
  value : Peers e.value e'.value

theorem PeerEntry.nodes {entries entries' : List (HashEntry Pending)}
    (h : List.Forall₂ PeerEntry entries entries') : entryNodes entries = entryNodes entries' := by
  induction h with
  | nil => rfl
  | cons he _ ih =>
    unfold entryNodes
    rw [he.key.node, he.value.node, ih]

theorem peers_hash (s : Span) {entries entries' : List (HashEntry Pending)}
    (h : List.Forall₂ PeerEntry entries entries') (types : Option HashTypes) :
    Peers (hash s entries types) (hash s entries' types) where
  run := by
    unfold hash
    rw [PeerEntry.nodes h]
  face := rfl

end Pending

end CoreTree
