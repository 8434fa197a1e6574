import CoreTree.Proofs.Runs.Basic

/-! # Runs that succeed, step by step

A run of code that succeeds splits at every step, and of the constructs that look at the scope
or set it back it is told which parts ran from which scope.
-/
namespace CoreTree
set_option autoImplicit false

namespace Runs

variable {file : Option SourcePath} {α β : Type} {st st' : NormalState} {moves : List Move}

theorem of_pure {a b : α} (h : Runs file (Pure.pure a) st moves (.ok b st')) :
    moves = [] ∧ b = a ∧ st' = st := by
  obtain ⟨rfl, hEq⟩ := h.canRun
  cases hEq
  exact ⟨rfl, rfl, rfl⟩

theorem of_act {a : Act α} {b : α} (h : Runs file (.act a) st moves (.ok b st')) :
    moves = a.moves st ∧ a.run.run st = .ok b st' := ⟨h.canRun.1, h.canRun.2.symm⟩

theorem of_bind {c : Code α} {f : α → Code β} {b : β}
    (h : Runs file (c >>= f) st moves (.ok b st')) :
    ∃ a mid first rest, Runs file c st first (.ok a mid) ∧ Runs file (f a) mid rest (.ok b st') ∧
      moves = first ++ rest := by
  obtain h | ⟨e, mid, _, hEq⟩ := h.canRun
  · exact h
  · cases hEq

theorem of_transform {n : Node} {o : Outcome}
    (h : Runs file (.transform n) st moves (.ok o st')) : Runs file n.code st moves (.ok o st') :=
  h.canRun

theorem of_apart {params : List Symbol} {n m : Node}
    (h : Runs file (.apart params n) st moves (.ok m st')) :
    ∃ inner o mid, Runs file (.transform n) ⟨st.program, .ofParams params⟩ inner (.ok o mid) ∧
      moves = [.apart n inner (some o.node)] ∧ m = o.node ∧ st' = ⟨mid.program, st.scope⟩ := by
  obtain ⟨inner, _ | _, hRuns, rfl, hEq⟩ := h.canRun
  · cases hEq
    exact ⟨_, _, _, hRuns, rfl, rfl, rfl⟩
  · cases hEq

/-! ## Steps that call nothing -/

theorem of_getScope {s : Scope} (h : Runs file Code.getScope st moves (.ok s st')) :
    moves = [] ∧ s = st.scope ∧ st' = st := by
  obtain ⟨rfl, hEq⟩ := h.of_act
  cases hEq
  exact ⟨rfl, rfl, rfl⟩

theorem of_setScope {s : Scope} {u : Unit} (h : Runs file (Code.setScope s) st moves (.ok u st')) :
    moves = [.reached s] ∧ st' = ⟨st.program, s⟩ := by
  obtain ⟨rfl, hEq⟩ := h.of_act
  cases hEq
  exact ⟨rfl, rfl⟩

theorem of_noteBridges {bridges : List Bridge} {u : Unit}
    (h : Runs file (Code.noteBridges bridges) st moves (.ok u st')) :
    moves = [.bridged bridges] ∧ st' = st := by
  obtain ⟨rfl, hEq⟩ := h.of_act
  cases hEq
  exact ⟨rfl, rfl⟩

theorem of_noteParams {params : List Symbol} {u : Unit}
    (h : Runs file (Code.noteParams params) st moves (.ok u st')) :
    moves = [.boundParams params] ∧ st' = st := by
  obtain ⟨rfl, hEq⟩ := h.of_act
  cases hEq
  exact ⟨rfl, rfl⟩

theorem of_allocate {act : Norm α} {hAct : act.Allocating} {a : α}
    (h : Runs file (.act (.allocate act hAct)) st moves (.ok a st')) :
    moves = [] ∧ act.run st = .ok a st' ∧ st'.scope = st.scope := by
  obtain ⟨rfl, hEq⟩ := h.of_act
  refine ⟨rfl, hEq, ?_⟩
  obtain ⟨b, q, _, hRun⟩ := hAct st.program
  rw [Act.run, hRun st.scope] at hEq
  cases hEq
  rfl

theorem of_write {v w : Var} (h : Runs file (.act (.write v)) st moves (.ok w st')) :
    moves = [.wrote v.name (st.scope.write v.name).1, .reached (st.scope.write v.name).2] ∧
      w = { v with version := (st.scope.write v.name).1 } ∧
      st' = ⟨st.program, (st.scope.write v.name).2⟩ := by
  obtain ⟨rfl, hEq⟩ := h.of_act
  cases hEq
  exact ⟨rfl, rfl, rfl⟩

theorem of_read {s : Span} {v w : Var} (h : Runs file (.act (.read s v)) st moves (.ok w st')) :
    moves = [] ∧ w.name = v.name ∧ w.out = v.out ∧ st' = st := by
  obtain ⟨rfl, hEq⟩ := h.of_act
  rw [Act.run_read] at hEq
  cases hVersion : st.scope.readVersion? v.name with
  | some version =>
    rw [hVersion] at hEq
    cases hEq
    exact ⟨rfl, rfl, rfl, rfl⟩
  | none =>
    rw [hVersion] at hEq
    cases hEq

/-! ## Branches -/

/-- What there is to know of a branch that ran from `start`, if there was one. -/
def RanBranch (file : Option SourcePath) (start : Scope) (n : Option Node) (st : NormalState)
    (moves : List Move) (e : Option BranchEnd) (st' : NormalState) : Prop :=
  match n with
  | none => moves = [] ∧ e = none ∧ st' = st
  | some n => ∃ o inner, Runs file (.transform n) ⟨st.program, start⟩ inner (.ok o st') ∧
    moves = .reached start :: inner ∧ e = some ⟨o.node.toOption, st'.scope, o.ends⟩

theorem of_runBranch {start : Scope} {n : Option Node} {e : Option BranchEnd}
    (h : Runs file (Code.runBranch start n) st moves (.ok e st')) :
    RanBranch file start n st moves e st' := by
  cases n with
  | none =>
    obtain ⟨rfl, rfl, rfl⟩ := h.of_pure
    exact ⟨rfl, rfl, rfl⟩
  | some n =>
    obtain ⟨_, _, _, _, hSet, h₁, rfl⟩ := h.of_bind
    obtain ⟨rfl, rfl⟩ := hSet.of_setScope
    obtain ⟨o, _, inner, _, hRuns, h₂, rfl⟩ := h₁.of_bind
    obtain ⟨_, _, _, _, hGet, h₃, rfl⟩ := h₂.of_bind
    obtain ⟨rfl, rfl, rfl⟩ := hGet.of_getScope
    obtain ⟨rfl, rfl, rfl⟩ := h₃.of_pure
    exact ⟨o, inner, hRuns, by simp, rfl⟩

/-- A conditional whose test has run: both branches, then the join. -/
structure RanIfElse (file : Option SourcePath) (s : Span) (onTrue onFalse : Option Node)
    (test : Node) (st : NormalState) (moves : List Move) (o : Outcome) (st' : NormalState)
    (thenEnd elseEnd : Option BranchEnd) (elseStart : Scope) (join : BranchJoin) : Prop where
  starts : elseStart = thenEnd.elim st.scope fun e => Scope.elseStart st.scope e.scope
  joins : join = Scope.joinBranches st.scope (thenEnd.map (·.scope)) elseStart
    (elseEnd.map (·.scope))
  branches : ∃ mid last first second, RanBranch file st.scope onTrue st first thenEnd mid ∧
    RanBranch file elseStart onFalse mid second elseEnd last ∧
    moves = first ++ second ++
      [.bridged (join.thenBridges ++ join.elseBridges), .reached join.scope]
  scope : st'.scope = join.scope
  outcome : ∃ thenNode elseNode before mid,
    (BranchEnd.close s thenEnd join.thenBridges).run before = .ok thenNode mid ∧
    (BranchEnd.close s elseEnd join.elseBridges).run mid = .ok elseNode st' ∧
    o = ⟨.cond s .whenTrue test thenNode elseNode, thenEnd.any (·.ends) && elseEnd.any (·.ends)⟩

theorem of_ifElse {s : Span} {test : Node} {onTrue onFalse : Option Node} {o : Outcome}
    (h : Runs file (Code.ifElse s test onTrue onFalse) st moves (.ok o st')) :
    ∃ testNode mid first rest thenEnd elseEnd elseStart join,
      Runs file (Code.node test) st first (.ok testNode mid) ∧
      RanIfElse file s onTrue onFalse testNode mid rest o st' thenEnd elseEnd elseStart join ∧
      moves = first ++ rest := by
  obtain ⟨testNode, mid, first, _, hTest, h₁, rfl⟩ := h.of_bind
  obtain ⟨_, _, _, _, hGet, h₂, rfl⟩ := h₁.of_bind
  obtain ⟨rfl, rfl, rfl⟩ := hGet.of_getScope
  obtain ⟨thenEnd, _, thenMoves, _, hThen, h₃, rfl⟩ := h₂.of_bind
  obtain ⟨elseEnd, last, elseMoves, _, hElse, h₄, rfl⟩ := h₃.of_bind
  obtain ⟨_, _, _, _, hNote, h₅, rfl⟩ := h₄.of_bind
  obtain ⟨rfl, rfl⟩ := hNote.of_noteBridges
  obtain ⟨_, _, _, _, hSet, h₆, rfl⟩ := h₅.of_bind
  obtain ⟨rfl, rfl⟩ := hSet.of_setScope
  obtain ⟨thenNode, _, _, _, hThenClose, h₇, rfl⟩ := h₆.of_bind
  obtain ⟨rfl, hThenClose, hScope⟩ := hThenClose.of_allocate
  obtain ⟨elseNode, _, _, _, hElseClose, h₈, rfl⟩ := h₇.of_bind
  obtain ⟨rfl, hElseClose, hScope'⟩ := hElseClose.of_allocate
  obtain ⟨rfl, rfl, rfl⟩ := h₈.of_pure
  exact ⟨testNode, _, first, _, thenEnd, elseEnd, _, _, hTest,
    ⟨rfl, rfl, ⟨_, _, thenMoves, elseMoves, hThen.of_runBranch, hElse.of_runBranch, by simp⟩,
      hScope'.trans hScope, ⟨thenNode, elseNode, _, _, hThenClose, hElseClose, rfl⟩⟩, rfl⟩

/-- A loop: the test, the body from where the test ends, and back to there. -/
theorem of_loop {s : Span} {test : Node} {body : Option Node} {o : Outcome}
    (h : Runs file (Code.loop s test body) st moves (.ok o st')) :
    ∃ testNode mid first rest e last, Runs file (Code.node test) st first (.ok testNode mid) ∧
      RanBranch file mid.scope body mid rest e last ∧
      let bodyBridges := Scope.loopBridges mid.scope last.scope
      let testBridges := (Scope.loopBridges st.scope last.scope).filter (!bodyBridges.contains ·)
      moves = first ++ rest ++ [.bridged (bodyBridges ++ testBridges),
        .reached (Scope.rewindLoop mid.scope last.scope)] ∧
      st' = ⟨last.program, Scope.rewindLoop mid.scope last.scope⟩ := by
  obtain ⟨_, _, _, _, hGet, h₁, rfl⟩ := h.of_bind
  obtain ⟨rfl, rfl, rfl⟩ := hGet.of_getScope
  obtain ⟨testNode, mid, first, _, hTest, h₂, rfl⟩ := h₁.of_bind
  obtain ⟨_, _, _, _, hGet, h₃, rfl⟩ := h₂.of_bind
  obtain ⟨rfl, rfl, rfl⟩ := hGet.of_getScope
  obtain ⟨e, last, rest, _, hBody, h₄, rfl⟩ := h₃.of_bind
  obtain ⟨_, _, _, _, hGet, h₅, rfl⟩ := h₄.of_bind
  obtain ⟨rfl, rfl, rfl⟩ := hGet.of_getScope
  obtain ⟨_, _, _, _, hNote, h₆, rfl⟩ := h₅.of_bind
  obtain ⟨rfl, rfl⟩ := hNote.of_noteBridges
  obtain ⟨_, _, _, _, hSet, h₇, rfl⟩ := h₆.of_bind
  obtain ⟨rfl, rfl⟩ := hSet.of_setScope
  obtain ⟨rfl, rfl, rfl⟩ := h₇.of_pure
  exact ⟨testNode, _, first, rest, e, _, hTest, hBody.of_runBranch, by simp, rfl⟩

/-- A block: its body from where the parameters are bound, and back to before it. -/
theorem of_runBlock {s : Span} {b b' : Block Node}
    (h : Runs file (Code.runBlock s b) st moves (.ok b' st')) :
    ∃ e last inner, let (hidden, bound) := Scope.bindParams st.scope b.params
      let now := Scope.unbindParams last.scope hidden
      let bridges := Scope.loopBridges st.scope now
      RanBranch file bound b.body ⟨st.program, bound⟩ inner e last ∧
      moves = [.boundParams b.params, .reached bound] ++ inner ++
        [.bridged bridges, .reached (Scope.rewindBlock now bridges)] ∧
      st'.scope = Scope.rewindBlock now bridges := by
  obtain ⟨_, _, _, _, hGet, h₁, rfl⟩ := h.of_bind
  obtain ⟨rfl, rfl, rfl⟩ := hGet.of_getScope
  obtain ⟨_, _, _, _, hNote, h₂, rfl⟩ := h₁.of_bind
  obtain ⟨rfl, rfl⟩ := hNote.of_noteParams
  obtain ⟨_, _, _, _, hSet, h₃, rfl⟩ := h₂.of_bind
  obtain ⟨rfl, rfl⟩ := hSet.of_setScope
  obtain ⟨e, last, inner, _, hBody, h₄, rfl⟩ := h₃.of_bind
  obtain ⟨_, _, _, _, hGet, h₅, rfl⟩ := h₄.of_bind
  obtain ⟨rfl, rfl, rfl⟩ := hGet.of_getScope
  obtain ⟨_, _, _, _, hNote, h₆, rfl⟩ := h₅.of_bind
  obtain ⟨rfl, rfl⟩ := hNote.of_noteBridges
  obtain ⟨_, _, _, _, hSet, h₇, rfl⟩ := h₆.of_bind
  obtain ⟨rfl, rfl⟩ := hSet.of_setScope
  obtain ⟨_, _, _, _, hClose, h₈, rfl⟩ := h₇.of_bind
  obtain ⟨rfl, _, hScope⟩ := hClose.of_allocate
  obtain ⟨rfl, rfl, rfl⟩ := h₈.of_pure
  exact ⟨e, _, inner, hBody.of_runBranch, by simp, hScope⟩

end Runs

end CoreTree
