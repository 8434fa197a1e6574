import CoreTree.Proofs.Renaming.Actions

/-! # Statements side by side

Trees are put together from statements in the same way whatever the names in them are. So are the
ends of branches and bodies, with bridges for the same variables in the same order.
-/
namespace CoreTree
set_option autoImplicit false

/-! ## Trees that are put together -/

namespace Node

variable {g : Renaming}

theorem isPure_rename (n : Node) : (n.rename g).isPure = n.isPure := by
  cases n with
  | atom _ a => cases a <;> rfl
  | call s receiver name args block => simp [isPure]
  | _ => simp [isPure]

theorem isNop_rename (n : Node) : (n.rename g).isNop = n.isNop := by
  cases n with
  | atom _ a => cases a <;> rfl
  | _ => simp [isNop]

theorem toOption_rename (n : Node) : (n.rename g).toOption = renameOption g n.toOption := by
  unfold toOption
  rw [isNop_rename]
  split <;> rfl

theorem statements_rename (n : Node) : (n.rename g).statements = renameList g n.statements := by
  rw [renameList_eq_map]
  cases n with
  | atom _ a => cases a <;> rfl
  | _ => simp [statements]

theorem ofStatements_rename (s : Span) (ns : List Node) :
    ofStatements s (renameList g ns) = (ofStatements s ns).rename g := by
  match ns with
  | [] => rfl
  | [n] => rfl
  | _ :: _ :: _ => rfl

end Node

variable {g : Renaming}

theorem branchStatements_rename (n : Option Node) :
    branchStatements (renameOption g n) = renameList g (branchStatements n) := by
  cases n with
  | none => rfl
  | some n => exact n.statements_rename

theorem renameList_append (ns ms : List Node) :
    renameList g (ns ++ ms) = renameList g ns ++ renameList g ms := by
  simp only [renameList_eq_map, List.map_append]

theorem Bridge.node_rename (s : Span) (b : Bridge) :
    (b.rename g.name).node s = (b.node s).rename g := by
  obtain ⟨x, target, _ | source⟩ := b <;> rfl

theorem renameList_bridges (s : Span) (bridges : List Bridge) :
    renameList g (bridges.map (·.node s)) = (bridges.map (·.rename g.name)).map (·.node s) := by
  simp only [renameList_eq_map, List.map_map]
  exact List.map_congr_left fun b _ => (b.node_rename s).symm

theorem appendLoopBridges_rename (s : Span) (body : Option Node) (bridges : List Bridge) :
    appendLoopBridges s (renameOption g body) (bridges.map (·.rename g.name)) =
      renameOption g (appendLoopBridges s body bridges) := by
  unfold appendLoopBridges
  rw [List.isEmpty_map]
  split
  · rfl
  · rw [branchStatements_rename, ← renameList_bridges, ← renameList_append,
      Node.ofStatements_rename]
    rfl

namespace Pairing

variable {P : Pairing} {p p' q q' : Program} {n n' m m' : Node} {ns ns' ms ms' : List Node}

/-! ## Trees that are the same -/

theorem same_nil : P.Same renameList p p' [] [] := fun _ _ => rfl

theorem Same.cons (h : P.Same Node.rename p p' n n') (hs : P.Same renameList p p' ns ns') :
    P.Same renameList p p' (n :: ns) (n' :: ns') := fun g hg => by
  rw [renameList, h g hg, hs g hg]

theorem Same.singleton (h : P.Same Node.rename p p' n n') : P.Same renameList p p' [n] [n'] :=
  h.cons same_nil

theorem Same.append (h : P.Same renameList p p' ns ns') (h' : P.Same renameList p p' ms ms') :
    P.Same renameList p p' (ns ++ ms) (ns' ++ ms') := fun g hg => by
  rw [renameList_append, h g hg, h' g hg]

theorem Same.some (h : P.Same Node.rename p p' n n') :
    P.Same renameOption p p' (some n) (some n') := fun g hg => by
  rw [renameOption, h g hg]

theorem Same.seq (h : P.Same renameList p p' ns ns') (s : Span) :
    P.Same Node.rename p p' (.seq s ns) (.seq s ns') := fun g hg => by
  rw [Node.rename_seq, h g hg, renameList_eq_map]

theorem Same.assign (h : P.Same Node.rename p p' n n') (h' : P.Same Node.rename p p' m m')
    (s : Span) : P.Same Node.rename p p' (.assign s n m) (.assign s n' m') := fun g hg => by
  rw [Node.rename_assign, h g hg, h' g hg]

theorem Same.temp {t t' : Symbol} (h : P.Same Renaming.name p p' t t') (s : Span) :
    P.Same Node.rename p p' (.temp s t) (.temp s t') := fun g hg => congrArg (Node.temp s) (h g hg)

theorem Same.span (h : P.Same Node.rename p p' n n') (hLevel : P.Level p p') :
    n'.span = n.span :=
  Always.elim (fun g hg => h g hg ▸ n.span_rename) hLevel

theorem Same.rel {o o' : Option Node} (h : P.Same renameOption p p' o o') (hLevel : P.Level p p') :
    Option.Rel (P.Same Node.rename p p') o o' := by
  obtain ⟨g₀, hg₀⟩ := hLevel.exists_fits
  cases o with
  | none =>
    rw [h g₀ hg₀]
    exact .none
  | some n =>
    cases o' with
    | none => cases h g₀ hg₀
    | some n' => exact .some fun g hg => Option.some.inj (h g hg)

/-! ## Ends of branches and bodies -/

variable {bridges bridges' : List Bridge}

theorem Level.sameBridges (h : P.Level p p')
    (hBridges : BridgesRenamed P.rename P.names bridges bridges') :
    P.Same (fun g => List.map (·.rename g.name)) p p' bridges bridges' := fun g hg => by
  rw [hBridges.bridges]
  dsimp only
  refine List.map_congr_left fun b hb => ?_
  rw [Bridge.rename, Bridge.rename, h.name_of_mem hg (hBridges.known b hb)]

theorem Level.bridgeNodes (h : P.Level p p') (s : Span)
    (hBridges : BridgesRenamed P.rename P.names bridges bridges') :
    P.Same renameList p p' (bridges.map (·.node s)) (bridges'.map (·.node s)) := fun g hg => by
  rw [h.sameBridges hBridges g hg, renameList_bridges]

theorem agrees_appendBridges (s : Span) {branch branch' : Option Node}
    (hBranch : P.Same renameOption p p' branch branch')
    (hBridges : BridgesRenamed P.rename P.names bridges bridges') :
    P.Agrees p p' (appendBridges s branch bridges) (appendBridges s branch' bridges')
      (P.Same renameOption) := by
  refine agrees_of_level fun q q' hq => ?_
  have hAssigns := hq.level.bridgeNodes s hBridges
  have hStmts : P.Same renameList q q' (branchStatements branch) (branchStatements branch') :=
    fun g hg => by rw [hBranch.later hq g hg, branchStatements_rename]
  unfold appendBridges
  rw [show bridges'.isEmpty = bridges.isEmpty by rw [hBridges.bridges, List.isEmpty_map]]
  split
  · exact agrees_pure fun r r' hr => (hBranch.later hq).later hr
  dsimp only
  generalize branchStatements branch = stmts at hStmts
  generalize branchStatements branch' = stmts' at hStmts
  have hInit : P.Same renameList q q' stmts.dropLast stmts'.dropLast := fun g hg => by
    rw [hStmts g hg, renameList_eq_map, renameList_eq_map, List.map_dropLast]
  have hLast : P.Same renameOption q q' stmts.getLast? stmts'.getLast? := fun g hg => by
    rw [hStmts g hg, renameList_eq_map, renameOption_eq_map, List.getLast?_map]
  cases hStmtsLast : stmts.getLast? <;> cases hStmtsLast' : stmts'.getLast? <;>
    rw [hStmtsLast, hStmtsLast'] at hLast <;> cases hLast.rel hq.level
  case none.none.none =>
    refine agrees_pure fun r r' hr => (Same.seq ?_ s).some
    exact (hAssigns.later hr).append (Same.singleton fun _ _ => rfl)
  case some.some.some last last' hLast =>
    have hPure : last'.isPure = last.isPure :=
      Always.elim (fun g hg => hLast g hg ▸ last.isPure_rename) hq.level
    dsimp only
    rw [hPure, hLast.span hq.level]
    split
    · refine agrees_pure fun r r' hr => (Same.seq ?_ s).some
      exact ((hInit.later hr).append (hAssigns.later hr)).append (hLast.later hr).singleton
    · refine agrees_freshTemp.bind fun t t' r r' hr ht => agrees_pure fun u u' hu => ?_
      have hLater := hr.trans hu
      have hTemp : P.Same Node.rename u u' (.temp last.span t) (.temp last.span t') :=
        (ht.later hu).temp last.span
      have hSaved := hTemp.assign (hLast.later hLater) last.span
      refine (Same.seq ?_ s).some
      exact (((hInit.later hLater).append hSaved.singleton).append (hAssigns.later hLater)).append
        hTemp.singleton

/-- Branches that ran side by side. -/
structure SameEnd (P : Pairing) (p p' : Program) (e e' : BranchEnd) : Prop where
  node : P.Same renameOption p p' e.node e'.node
  scope : P.SameScope e.scope e'.scope
  ends : e'.ends = e.ends

abbrev SameEnds (P : Pairing) (p p' : Program) : Option BranchEnd → Option BranchEnd → Prop :=
  Option.Rel (P.SameEnd p p')

theorem SameEnds.later {e e' : Option BranchEnd} (h : P.SameEnds p p' e e')
    (hReaches : P.Reaches p p' q q') : P.SameEnds q q' e e' := by
  cases h with
  | none => exact .none
  | some h => exact .some ⟨h.node.later hReaches, h.scope, h.ends⟩

theorem SameEnds.scope {e e' : Option BranchEnd} (h : P.SameEnds p p' e e') :
    Scope.OptionRenamed P.rename P.names (e.map (·.scope)) (e'.map (·.scope)) := by
  cases h with
  | none => exact .none
  | some h => exact .some h.scope

theorem SameEnds.any_ends {e e' : Option BranchEnd} (h : P.SameEnds p p' e e') :
    e'.any (·.ends) = e.any (·.ends) := by
  cases h with
  | none => rfl
  | some h => exact h.ends

theorem agrees_close (s : Span) {e e' : Option BranchEnd} (h : P.SameEnds p p' e e')
    (hBridges : BridgesRenamed P.rename P.names bridges bridges') :
    P.Agrees p p' (BranchEnd.close s e bridges) (BranchEnd.close s e' bridges')
      (P.Same renameOption) := by
  cases h with
  | none => exact agrees_appendBridges s (fun _ _ => rfl) hBridges
  | some h =>
    unfold BranchEnd.close
    dsimp only
    rw [h.ends]
    split
    · exact agrees_pure fun q q' hq => h.node.later hq
    · exact agrees_appendBridges s h.node hBridges

theorem Level.closeLoop (hLevel : P.Level p p') (s : Span) {e e' : Option BranchEnd}
    (h : P.SameEnds p p' e e') (hBridges : BridgesRenamed P.rename P.names bridges bridges') :
    P.Same renameOption p p' (BranchEnd.closeLoop s e bridges)
      (BranchEnd.closeLoop s e' bridges') := by
  have hAppend : ∀ {body body' : Option Node}, P.Same renameOption p p' body body' →
      P.Same renameOption p p' (appendLoopBridges s body bridges)
        (appendLoopBridges s body' bridges') := fun hBody g hg => by
    rw [hBody g hg, hLevel.sameBridges hBridges g hg, appendLoopBridges_rename]
  cases h with
  | none => exact hAppend fun _ _ => rfl
  | some h =>
    unfold BranchEnd.closeLoop
    dsimp only
    rw [h.ends]
    split
    · exact h.node
    · exact hAppend h.node

end Pairing

end CoreTree
