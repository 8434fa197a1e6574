import CoreTree.Normal.OfNode
import Mathlib.Data.Finset.SDiff

/-! # The names bound at each read

A walk through a tree that sees no versions. It carries the set of names that are bound, takes the
parts of a tree in turn and stops at the first read of a name that is not bound. Besides, it tells
whether control never reaches what stands after the tree.
-/
namespace CoreTree
set_option autoImplicit false

structure Read where
  name : Symbol
  span : Span
deriving DecidableEq

/-- The read at which a walk stops is its error. -/
abbrev Walk := StateT (Finset Symbol) (Except Read)

namespace Walk

variable {α : Type}

def bindName (x : Symbol) : Walk Unit := modify (insert x)

def read (s : Span) (x : Symbol) : Walk Unit := do
  if x ∈ (← get) then return () else throw ⟨x, s⟩

/-- An `out` variable counts as written. -/
def use (s : Span) (v : Var) : Walk Unit := if v.out then bindName v.name else read s v.name

/-- The target of a write. Anything but a variable is walked as usual, by `w`. -/
def target (n : Node) (w : Walk Bool) : Walk Unit :=
  match n with
  | .var _ v => bindName v.name
  | _ => do
    let _ ← w
    return ()

/-- A walk that starts from the given names, and binds none outside. -/
def apart (names : Finset Symbol) (w : Walk α) : Walk α := do
  let outer ← get
  set names
  let a ← w
  set outer
  return a

/-- What is assigned, walked by `w`. The initializer of a constant sees no variables. -/
def value (target : Node) (w : Walk Bool) : Walk Bool :=
  match target with
  | .atom _ (.const _) => apart ∅ w
  | _ => w

/-- The second branch starts from what is bound at the end of the first. -/
def branches (first second : Walk Bool) : Walk Bool := do
  let ends ← first
  let otherEnds ← second
  return ends && otherEnds

/-- A walk with parameters, which are not bound behind it unless they were before it. -/
def withParams (params : List Symbol) (w : Walk α) : Walk α := do
  let outer ← get
  set (outer ∪ params.toFinset)
  let a ← w
  modify (· \ (params.toFinset \ outer))
  return a

end Walk

mutual
/-- The walk through a tree. It returns whether the tree ends, so that nothing behind it is
reached. -/
def Node.walk : Node → Walk Bool
  | .atom .. | .regex .. | .require .. => return false
  | .var s v => do
    Walk.use s v
    return false
  | .seq _ stmts => walkStatements stmts
  | .cond _ .whenTrue test body other => do
    let _ ← test.walk
    Walk.branches (walkOption body) (walkOption other)
  | .cond _ .whenFalse test body other => do
    let _ ← test.walk
    Walk.branches (walkOption other) (walkOption body)
  | .loop _ test body => do
    let _ ← test.walk
    let _ ← walkOption body
    return false
  -- a subject that is read without effect is read again for each pattern, and any other once
  | .choose _ subject whens other =>
    if Pending.isScrutinee subject then walkWhens whens subject.walk (walkOption other)
    else do
      let _ ← subject.walk
      walkWhens whens (return false) (walkOption other)
  | .logic _ _ left right => do
    let _ ← left.walk
    let _ ← right.walk
    return false
  | .jump _ _ value => do
    let _ ← walkOption value
    return true
  | .assign _ target value => do
    let _ ← Walk.value target value.walk
    Walk.target target target.walk
    return false
  | .multi _ targets values => do
    walkList values
    walkTargets targets
    return false
  | .call _ receiver _ args none => do
    let _ ← walkOption receiver
    walkList args
    return false
  | .call _ receiver _ args (some ⟨params, body⟩) => do
    let _ ← walkOption receiver
    walkList args
    let _ ← Walk.withParams params (walkOption body)
    return false
  | .isA _ subject _ => do
    let _ ← subject.walk
    return false
  | .define _ _ _ params body => do
    walkDefaults params []
    let _ ← Walk.apart (params.map (·.name)).toFinset (walkOption body)
    return false
  | .interp _ pieces => do
    walkList pieces
    return false
  | .range _ first last _ => do
    let _ ← first.walk
    let _ ← last.walk
    return false
  | .array _ elements _ => do
    walkList elements
    return false
  | .hash _ entries _ => do
    walkEntries entries
    return false
termination_by structural n => n

def walkOption : Option Node → Walk Bool
  | none => return false
  | some n => n.walk
termination_by structural n => n

def walkList : List Node → Walk Unit
  | [] => return ()
  | n :: ns => do
    let _ ← n.walk
    walkList ns
termination_by structural ns => ns

def walkTargets : List Node → Walk Unit
  | [] => return ()
  | n :: ns => do
    Walk.target n n.walk
    walkTargets ns
termination_by structural ns => ns

/-- Statements up to the first one that ends. -/
def walkStatements : List Node → Walk Bool
  | [] => return false
  | n :: ns => do
    if ← n.walk then return true
    walkStatements ns
termination_by structural ns => ns

/-- Patterns in turn, and `again` after each. -/
def walkPatterns : List Node → Walk Bool → Walk Unit
  | [], _ => return ()
  | n :: ns, again => do
    let _ ← n.walk
    let _ ← again
    walkPatterns ns again
termination_by structural ns => ns

/-- The clauses of a `case` as a chain of conditionals, with `other` as the last branch. -/
def walkWhens : List (When Node) → Walk Bool → Walk Bool → Walk Bool
  | [], _, other => other
  | ⟨patterns, body⟩ :: whens, again, other => do
    walkPatterns patterns again
    Walk.branches (walkOption body) (walkWhens whens again other)
termination_by structural whens => whens

/-- Each default value sees the parameters before its own. -/
def walkDefaults : List (Param Node) → List Symbol → Walk Unit
  | [], _ => return ()
  | ⟨name, default⟩ :: params, given => do
    let _ ← Walk.apart given.toFinset (walkOption default)
    walkDefaults params (given ++ [name])
termination_by structural params => params

def walkEntries : List (HashEntry Node) → Walk Unit
  | [] => return ()
  | ⟨key, value⟩ :: entries => do
    let _ ← key.walk
    let _ ← value.walk
    walkEntries entries
termination_by structural entries => entries
end

attribute [simp] Node.walk walkOption walkList walkTargets walkStatements walkPatterns walkWhens
  walkDefaults walkEntries

namespace Walk

variable {α β : Type}

theorem ext {w w' : Walk α} (h : ∀ bound, w.run bound = w'.run bound) : w = w' := funext h

theorem error_bind (w : Walk α) (f : α → Walk β) {bound : Finset Symbol} {read : Read}
    (h : w.run bound = .error read) : (w >>= f).run bound = .error read := by
  rw [StateT.run_bind, h]
  rfl

theorem ok_bind (w : Walk α) (f : α → Walk β) {bound bound' : Finset Symbol} {a : α}
    (h : w.run bound = .ok (a, bound')) : (w >>= f).run bound = (f a).run bound' := by
  rw [StateT.run_bind, h]
  rfl

/-! ## What is bound stays bound -/

def Keeps (w : Walk α) : Prop :=
  ∀ bound a bound', w.run bound = .ok (a, bound') → bound ⊆ bound'

theorem keeps_pure (a : α) : (pure a : Walk α).Keeps := by
  rintro bound _ _ ⟨⟩
  exact subset_rfl

theorem Keeps.bind {w : Walk α} {f : α → Walk β} (h : w.Keeps) (hNext : ∀ a, (f a).Keeps) :
    (w >>= f).Keeps := by
  intro bound b bound'' hRun
  cases hFirst : w.run bound with
  | error read =>
    rw [error_bind w f hFirst] at hRun
    cases hRun
  | ok first =>
    rw [ok_bind w f hFirst] at hRun
    exact (h _ _ _ hFirst).trans (hNext first.1 _ _ _ hRun)

theorem keeps_bindName (x : Symbol) : (bindName x).Keeps := by
  rintro bound _ _ ⟨⟩
  exact Finset.subset_insert x bound

theorem run_read (s : Span) (x : Symbol) (bound : Finset Symbol) :
    (read s x).run bound = if x ∈ bound then .ok ((), bound) else .error ⟨x, s⟩ := by
  by_cases hx : x ∈ bound <;> simp [read, hx] <;> rfl

theorem keeps_read (s : Span) (x : Symbol) : (read s x).Keeps := by
  intro bound a bound' h
  rw [run_read] at h
  split at h <;> cases h
  exact subset_rfl

theorem keeps_use (s : Span) (v : Var) : (use s v).Keeps := by
  unfold use
  split
  · exact keeps_bindName _
  · exact keeps_read s _

theorem Keeps.target {w : Walk Bool} (h : w.Keeps) (n : Node) : (target n w).Keeps := by
  unfold Walk.target
  split
  · exact keeps_bindName _
  · exact h.bind fun _ => keeps_pure _

/-- A walk apart is put back to where it started. -/
theorem run_apart (names : Finset Symbol) (w : Walk α) (bound : Finset Symbol) :
    (apart names w).run bound = (w.run names).map fun a => (a.1, bound) := by
  show (w.run names >>= fun a => pure (a.1, bound)) = _
  cases w.run names <;> rfl

theorem apart_pure (names : Finset Symbol) (a : α) : apart names (pure a) = pure a := rfl

theorem keeps_apart (names : Finset Symbol) (w : Walk α) : (apart names w).Keeps := by
  intro bound a bound' h
  rw [run_apart] at h
  cases hRun : w.run names <;> rw [hRun] at h <;> cases h
  exact subset_rfl

theorem Keeps.value {w : Walk Bool} (h : w.Keeps) (n : Node) : (value n w).Keeps := by
  unfold Walk.value
  split
  · exact keeps_apart ∅ w
  · exact h

theorem Keeps.branches {first second : Walk Bool} (h : first.Keeps) (h' : second.Keeps) :
    (branches first second).Keeps :=
  h.bind fun _ => h'.bind fun _ => keeps_pure _

theorem run_withParams (params : List Symbol) (w : Walk α) (bound : Finset Symbol) :
    (withParams params w).run bound = (w.run (bound ∪ params.toFinset)).map fun a =>
      (a.1, a.2 \ (params.toFinset \ bound)) := by
  show (w.run (bound ∪ params.toFinset) >>= fun a =>
    pure (a.1, a.2 \ (params.toFinset \ bound))) = _
  cases w.run (bound ∪ params.toFinset) <;> rfl

theorem Keeps.withParams {w : Walk α} (h : w.Keeps) (params : List Symbol) :
    (withParams params w).Keeps := by
  intro bound a bound' hRun
  rw [run_withParams] at hRun
  cases hInner : w.run (bound ∪ params.toFinset) <;> rw [hInner] at hRun <;> cases hRun
  intro x hx
  have hBody := h _ _ _ hInner (Finset.mem_union_left _ hx)
  exact Finset.mem_sdiff.mpr ⟨hBody, fun hParam => (Finset.mem_sdiff.mp hParam).2 hx⟩

end Walk

mutual
theorem Node.keeps_walk : ∀ n : Node, n.walk.Keeps
  | .atom .. | .regex .. | .require .. => by simpa using Walk.keeps_pure _
  | .var s v => by
    rw [Node.walk]
    exact (Walk.keeps_use s v).bind fun _ => Walk.keeps_pure _
  | .seq _ stmts => by
    rw [Node.walk]
    exact keeps_walkStatements stmts
  | .cond _ .whenTrue test body other => by
    rw [Node.walk]
    exact test.keeps_walk.bind fun _ => (keeps_walkOption body).branches (keeps_walkOption other)
  | .cond _ .whenFalse test body other => by
    rw [Node.walk]
    exact test.keeps_walk.bind fun _ => (keeps_walkOption other).branches (keeps_walkOption body)
  | .loop _ test body => by
    rw [Node.walk]
    exact test.keeps_walk.bind fun _ => (keeps_walkOption body).bind fun _ => Walk.keeps_pure _
  | .choose _ subject whens other => by
    rw [Node.walk]
    split
    · exact keeps_walkWhens whens subject.keeps_walk (keeps_walkOption other)
    · exact subject.keeps_walk.bind fun _ =>
        keeps_walkWhens whens (Walk.keeps_pure _) (keeps_walkOption other)
  | .logic _ _ left right => by
    rw [Node.walk]
    exact left.keeps_walk.bind fun _ => right.keeps_walk.bind fun _ => Walk.keeps_pure _
  | .jump _ _ value => by
    rw [Node.walk]
    exact (keeps_walkOption value).bind fun _ => Walk.keeps_pure _
  | .assign _ target value => by
    rw [Node.walk]
    exact (value.keeps_walk.value target).bind fun _ =>
      (target.keeps_walk.target target).bind fun _ => Walk.keeps_pure _
  | .multi _ targets values => by
    rw [Node.walk]
    exact (keeps_walkList values).bind fun _ =>
      (keeps_walkTargets targets).bind fun _ => Walk.keeps_pure _
  | .call _ receiver _ args none => by
    rw [Node.walk]
    exact (keeps_walkOption receiver).bind fun _ =>
      (keeps_walkList args).bind fun _ => Walk.keeps_pure _
  | .call _ receiver _ args (some ⟨params, body⟩) => by
    rw [Node.walk]
    exact (keeps_walkOption receiver).bind fun _ => (keeps_walkList args).bind fun _ =>
      ((keeps_walkOption body).withParams params).bind fun _ => Walk.keeps_pure _
  | .isA _ subject _ => by
    rw [Node.walk]
    exact subject.keeps_walk.bind fun _ => Walk.keeps_pure _
  | .define _ _ _ params body => by
    rw [Node.walk]
    exact (keeps_walkDefaults params []).bind fun _ =>
      (Walk.keeps_apart _ _).bind fun _ => Walk.keeps_pure _
  | .interp _ pieces => by
    rw [Node.walk]
    exact (keeps_walkList pieces).bind fun _ => Walk.keeps_pure _
  | .range _ first last _ => by
    rw [Node.walk]
    exact first.keeps_walk.bind fun _ => last.keeps_walk.bind fun _ => Walk.keeps_pure _
  | .array _ elements _ => by
    rw [Node.walk]
    exact (keeps_walkList elements).bind fun _ => Walk.keeps_pure _
  | .hash _ entries _ => by
    rw [Node.walk]
    exact (keeps_walkEntries entries).bind fun _ => Walk.keeps_pure _

theorem keeps_walkOption : ∀ n : Option Node, (walkOption n).Keeps
  | none => by simpa using Walk.keeps_pure _
  | some n => by simpa using n.keeps_walk

theorem keeps_walkList : ∀ ns : List Node, (walkList ns).Keeps
  | [] => by simpa using Walk.keeps_pure _
  | n :: ns => by
    rw [walkList]
    exact n.keeps_walk.bind fun _ => keeps_walkList ns

theorem keeps_walkTargets : ∀ ns : List Node, (walkTargets ns).Keeps
  | [] => by simpa using Walk.keeps_pure _
  | n :: ns => by
    rw [walkTargets]
    exact (n.keeps_walk.target n).bind fun _ => keeps_walkTargets ns

theorem keeps_walkStatements : ∀ ns : List Node, (walkStatements ns).Keeps
  | [] => by simpa using Walk.keeps_pure _
  | n :: ns => by
    rw [walkStatements]
    refine n.keeps_walk.bind fun ends => ?_
    cases ends
    · exact keeps_walkStatements ns
    · exact Walk.keeps_pure _

theorem keeps_walkPatterns {again : Walk Bool} (hAgain : again.Keeps) :
    ∀ ns : List Node, (walkPatterns ns again).Keeps
  | [] => by simpa using Walk.keeps_pure _
  | n :: ns => by
    rw [walkPatterns]
    exact n.keeps_walk.bind fun _ => hAgain.bind fun _ => keeps_walkPatterns hAgain ns

theorem keeps_walkWhens {again other : Walk Bool} :
    ∀ ws : List (When Node), again.Keeps → other.Keeps → (walkWhens ws again other).Keeps
  | [], _, hOther => by simpa using hOther
  | ⟨patterns, body⟩ :: ws, hAgain, hOther => by
    rw [walkWhens]
    exact (keeps_walkPatterns hAgain patterns).bind fun _ =>
      (keeps_walkOption body).branches (keeps_walkWhens ws hAgain hOther)

theorem keeps_walkDefaults : ∀ (ps : List (Param Node)) (given : List Symbol),
    (walkDefaults ps given).Keeps
  | [], _ => by simpa using Walk.keeps_pure _
  | ⟨name, default⟩ :: ps, given => by
    rw [walkDefaults]
    exact (Walk.keeps_apart _ _).bind fun _ => keeps_walkDefaults ps _

theorem keeps_walkEntries : ∀ es : List (HashEntry Node), (walkEntries es).Keeps
  | [] => by simpa using Walk.keeps_pure _
  | ⟨key, value⟩ :: es => by
    rw [walkEntries]
    exact key.keeps_walk.bind fun _ => value.keeps_walk.bind fun _ => keeps_walkEntries es
end

end CoreTree
