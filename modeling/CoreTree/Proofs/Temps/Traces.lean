import CoreTree.Tree.Basic

/-! # What paths do to temporaries

The paths through a normalized tree, with any choice of branches and any number of rounds of loops
and blocks, told by the temporaries that they assign and read and by the jumps that leave the
tree. A definition is passed by: its body is run by itself. Sugar has no paths, since none is left.
-/
namespace CoreTree
set_option autoImplicit false

inductive Access where
  | set (t : Symbol)
  | get (t : Symbol)
deriving DecidableEq

/-- The paths through some code: what each does to temporaries in turn, and the jump by which it
leaves the code, unless it runs to the end. -/
abbrev Traces := List Access → Option JumpKind → Prop

namespace Traces

def quiet : Traces := fun trace exit => trace = [] ∧ exit = none

def single (a : Access) : Traces := fun trace exit => trace = [a] ∧ exit = none

def leave (kind : JumpKind) : Traces := fun trace exit => trace = [] ∧ exit = some kind

def andThen (first second : Traces) : Traces := fun trace exit =>
  (exit ≠ none ∧ first trace exit) ∨
    ∃ before after, first before none ∧ second after exit ∧ trace = before ++ after

def either (first second : Traces) : Traces := fun trace exit =>
  first trace exit ∨ second trace exit

/-- Rounds, and what comes when there is no further round. `break` ends them all, and `next` ends
one. -/
inductive rounds (done round : Traces) : Traces where
  | done {trace : List Access} (h : done trace none) : rounds done round trace none
  | broken {trace : List Access} (h : round trace (some .brk)) : rounds done round trace none
  | returned {trace : List Access} (h : round trace (some .ret)) :
    rounds done round trace (some .ret)
  | again {trace rest : List Access} {exit exit' : Option JumpKind} (h : round trace exit)
    (hExit : exit = none ∨ exit = some .next) (hRest : rounds done round rest exit') :
    rounds done round (trace ++ rest) exit'

end Traces

/-- A temporary as a target is assigned, not read. -/
def Node.targetTraces (target : Node) (read : Traces) : Traces :=
  match target with
  | .atom _ (.temp t) => .single (.set t)
  | _ => read

mutual
def Node.traces : Node → Traces
  | .atom _ (.temp t) => .single (.get t)
  | .atom .. | .var .. | .define .. => .quiet
  | .seq _ stmts => listTraces stmts
  | .cond _ _ test body other =>
    test.traces.andThen (.either (optionTraces body) (optionTraces other))
  | .loop _ test body => .rounds test.traces (test.traces.andThen (optionTraces body))
  | .jump _ kind value => (optionTraces value).andThen (.leave kind)
  | .assign _ target value => value.traces.andThen (target.targetTraces target.traces)
  | .multi _ targets values => (listTraces values).andThen (targetsTraces targets)
  | .call _ receiver _ args none => (optionTraces receiver).andThen (listTraces args)
  | .call _ receiver _ args (some ⟨_, body⟩) =>
    ((optionTraces receiver).andThen (listTraces args)).andThen
      (.rounds .quiet (optionTraces body))
  | .isA _ subject _ => subject.traces
  | .choose .. | .logic .. | .interp .. | .range .. | .regex .. | .array .. | .hash ..
  | .require .. => fun _ _ => False
termination_by structural n => n

def optionTraces : Option Node → Traces
  | none => .quiet
  | some n => n.traces
termination_by structural n => n

def listTraces : List Node → Traces
  | [] => .quiet
  | n :: ns => n.traces.andThen (listTraces ns)
termination_by structural n => n

def targetsTraces : List Node → Traces
  | [] => .quiet
  | n :: ns => (n.targetTraces n.traces).andThen (targetsTraces ns)
termination_by structural n => n
end

/-! ## Order -/

/-- Every read of `t` comes after an assignment of `t`. -/
def Access.InOrder (t : Symbol) (trace : List Access) : Prop :=
  ∀ before after, trace = before ++ .get t :: after → .set t ∈ before

namespace Access

variable {t : Symbol} {trace rest : List Access}

theorem inOrder_of_not_mem (h : .get t ∉ trace) : InOrder t trace := by
  rintro before after rfl
  simp at h

theorem inOrder_append_of_set (h : InOrder t trace) (hSet : .set t ∈ trace) :
    InOrder t (trace ++ rest) := by
  intro before after hEq
  obtain ⟨gap, rfl, -⟩ | ⟨gap, rfl, hGap⟩ := List.append_eq_append_iff.mp hEq
  · exact List.mem_append_left _ hSet
  · cases gap with
    | nil => simpa using hSet
    | cons a gap =>
      obtain ⟨rfl, -⟩ := List.cons_eq_cons.mp hGap
      exact h before gap rfl

theorem InOrder.append (h : InOrder t trace) (h' : InOrder t rest) : InOrder t (trace ++ rest) := by
  intro before after hEq
  obtain ⟨gap, rfl, hGap⟩ | ⟨gap, rfl, hGap⟩ := List.append_eq_append_iff.mp hEq
  · exact List.mem_append_right _ (h' gap after hGap)
  · cases gap with
    | nil => simpa using h' [] after hGap.symm
    | cons a gap =>
      obtain ⟨rfl, -⟩ := List.cons_eq_cons.mp hGap
      exact h before gap rfl

end Access

namespace Traces

variable {t : Symbol} {first second : Traces}

/-- On every path, reads of `t` come after an assignment of `t` on the same path. -/
def InOrder (t : Symbol) (traces : Traces) : Prop :=
  ∀ trace exit, traces trace exit → Access.InOrder t trace

/-- Every path that runs to the end assigns `t`. -/
def Sets (t : Symbol) (traces : Traces) : Prop := ∀ trace, traces trace none → .set t ∈ trace

theorem inOrder_quiet : quiet.InOrder t := by
  rintro _ _ ⟨rfl, -⟩
  exact Access.inOrder_of_not_mem nofun

theorem inOrder_leave (kind : JumpKind) : (leave kind).InOrder t := by
  rintro _ _ ⟨rfl, -⟩
  exact Access.inOrder_of_not_mem nofun

theorem inOrder_set (x : Symbol) : (single (.set x)).InOrder t := by
  rintro _ _ ⟨rfl, -⟩
  exact Access.inOrder_of_not_mem (by simp)

theorem inOrder_get {x : Symbol} (h : x ≠ t) : (single (.get x)).InOrder t := by
  rintro _ _ ⟨rfl, -⟩
  exact Access.inOrder_of_not_mem (by simp [h.symm])

theorem sets_single (t : Symbol) : (single (.set t)).Sets t := by
  rintro _ ⟨rfl, -⟩
  exact .head _

theorem InOrder.andThen_of_sets (h : first.InOrder t) (hSets : first.Sets t) :
    (first.andThen second).InOrder t := by
  rintro trace exit (⟨-, hFirst⟩ | ⟨before, after, hFirst, -, rfl⟩)
  · exact h trace exit hFirst
  · exact Access.inOrder_append_of_set (h before none hFirst) (hSets before hFirst)

theorem InOrder.andThen (h : first.InOrder t) (h' : second.InOrder t) :
    (first.andThen second).InOrder t := by
  rintro trace exit (⟨-, hFirst⟩ | ⟨before, after, hFirst, hSecond, rfl⟩)
  · exact h trace exit hFirst
  · exact (h before none hFirst).append (h' after exit hSecond)

theorem InOrder.either (h : first.InOrder t) (h' : second.InOrder t) :
    (first.either second).InOrder t := by
  rintro trace exit (hFirst | hSecond)
  · exact h trace exit hFirst
  · exact h' trace exit hSecond

theorem InOrder.rounds {done round : Traces} (hDone : done.InOrder t) (hRound : round.InOrder t) :
    (rounds done round).InOrder t := by
  intro trace exit h
  induction h with
  | done h => exact hDone _ _ h
  | broken h | returned h => exact hRound _ _ h
  | again h _ _ ih => exact (hRound _ _ h).append ih

theorem Sets.andThen_right (h : second.Sets t) : (first.andThen second).Sets t := by
  rintro trace (⟨hExit, -⟩ | ⟨before, after, -, hSecond, rfl⟩)
  · exact absurd rfl hExit
  · exact List.mem_append_right _ (h after hSecond)

end Traces

end CoreTree
