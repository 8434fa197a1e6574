import CoreTree.Proofs.Frame.Spares
import Mathlib.Logic.Function.Basic

/-! # What is sure of a variable

A loop carries a variable round only if a version of it reaches the loop. Any other that the loop
assigns has to be assigned again each time round before it is read, and behind the loop it is read
in the version of the body's end only if the scope did not know it. This is told of a tree as it is
written, from one point of it to the next.
-/
namespace CoreTree
set_option autoImplicit false

/-- What is sure of a variable at a point. If it is `new` or `hidden`, nothing that ran so far has
assigned it: no scope knows it, or one does for the sake of the branch that was not taken. If it is
`bound`, the version that reaches the point has its value. -/
inductive Standing where
  | new
  | hidden
  | bound
  | lost
deriving DecidableEq

namespace Standing

/-- At the start of the second branch, where the first one leads. -/
def hide (before afterFirst : Standing) : Standing :=
  if before = new ∧ afterFirst ≠ new then hidden else before

/-- Where two branches meet. In the one that did not assign the variable it is set to `nil`. -/
def join (a b : Standing) : Standing :=
  if a = lost ∨ b = lost then lost
  else if a = bound ∨ b = bound then bound
  else if a = b then a else lost

/-- At the test of a loop, whichever time round. -/
def again (assigned : Bool) (entry : Standing) : Standing :=
  if assigned = true ∧ entry ≠ bound then lost else entry

/-- Behind a loop. A variable that the scope of the test does not know keeps the version that the
end of the body has. -/
def leave (inTest : Bool) (entry atTest atEnd : Standing) : Standing :=
  if entry = new ∧ inTest = false ∧ atEnd = bound then bound else atTest

theorem hide_eq_new {a b : Standing} (h : a.hide b = .new) : a = .new ∧ b = .new := by
  cases a <;> cases b <;> first | exact ⟨rfl, rfl⟩ | cases h

theorem hide_eq_hidden {a b : Standing} (h : a.hide b = .hidden) : a = .new ∨ a = .hidden := by
  cases a <;> cases b <;> first | exact .inl rfl | exact .inr rfl | cases h

theorem hide_eq_bound {a b : Standing} (h : a.hide b = .bound) : a = .bound := by
  cases a <;> cases b <;> first | rfl | cases h

theorem again_eq (assigned : Bool) (a : Standing) :
    a.again assigned = a ∨ a.again assigned = .lost := by
  rw [again]
  split
  · exact .inr rfl
  · exact .inl rfl

theorem join_eq_lost_of_or {a b : Standing} (h : a = .lost ∨ b = .lost) : a.join b = .lost :=
  if_pos h

end Standing

abbrev Standings := Symbol → Standing

namespace Standings

def assign (t : Standings) (x : Symbol) : Standings := Function.update t x .bound

def branches (first second : Standings → Option Standings) (t : Standings) : Option Standings := do
  let afterFirst ← first t
  let afterSecond ← second fun x => (t x).hide (afterFirst x)
  return fun x => (afterFirst x).join (afterSecond x)

def loop (inTest inBody : Symbol → Bool) (test body : Standings → Option Standings)
    (t : Standings) : Option Standings := do
  let atTest ← test fun x => (t x).again (inTest x || inBody x)
  let atEnd ← body atTest
  return fun x => (t x).leave (inTest x) (atTest x) (atEnd x)

end Standings

mutual
/-- The tree may assign the variable. -/
def Node.assigns (x : Symbol) : Node → Bool
  | .atom .. => false
  | .var _ v => v.out
  | .seq _ stmts => listAssigns x stmts
  | .cond _ _ test body other => test.assigns x || optionAssigns x body || optionAssigns x other
  | .loop _ test body => test.assigns x || optionAssigns x body
  | .assign _ (.var _ v) value => v.name == x || v.out || value.assigns x
  | .call _ receiver _ args none => optionAssigns x receiver || listAssigns x args
  | _ => true
termination_by structural n => n

def optionAssigns (x : Symbol) : Option Node → Bool
  | none => false
  | some n => n.assigns x
termination_by structural n => n

def listAssigns (x : Symbol) : List Node → Bool
  | [] => false
  | n :: ns => n.assigns x || listAssigns x ns
termination_by structural n => n
end

mutual
/-- What is sure behind a tree of sequences, conditionals, loops, assignments, reads and calls, if
it is sure of every variable that it reads. -/
def Node.standings : Node → Standings → Option Standings
  | .atom _ .nop, _ | .atom _ (.temp _), _ => none
  | .atom _ _, t => some t
  | .var _ v, t => if v.out = false ∧ t v.name ≠ .lost then some t else none
  | .seq _ stmts, t => if stmts.isEmpty then none else listStandings stmts t
  | .cond _ .whenTrue test body other, t =>
    test.standings t >>= Standings.branches (optionStandings body) (optionStandings other)
  | .cond _ .whenFalse test body other, t =>
    test.standings t >>= Standings.branches (optionStandings other) (optionStandings body)
  | .loop _ test body, t =>
    t.loop (test.assigns ·) (optionAssigns · body) test.standings (optionStandings body)
  | .assign _ (.var _ v) value, t =>
    if v.out then none else (value.standings t).map (·.assign v.name)
  | .call _ receiver _ args none, t => optionStandings receiver t >>= listStandings args
  | _, _ => none
termination_by structural n => n

def optionStandings : Option Node → Standings → Option Standings
  | none, t => some t
  | some n, t => n.standings t
termination_by structural n => n

def listStandings : List Node → Standings → Option Standings
  | [], t => some t
  | n :: ns, t => n.standings t >>= listStandings ns
termination_by structural n => n
end

/-! ## What stays -/

namespace Standings

/-- What is bound stays so, and what is not assigned stays as it is. -/
structure Goes (assigned : Symbol → Bool) (t t' : Standings) : Prop where
  bound : ∀ x, t x = .bound → t' x = .bound
  same : ∀ x, assigned x = false → t' x = t x

variable {a b c : Symbol → Bool} {t t' t'' : Standings}

theorem Goes.refl (t : Standings) : t.Goes a t := ⟨fun _ h => h, fun _ _ => rfl⟩

theorem Goes.trans (h : t.Goes a t') (h' : t'.Goes b t'') : t.Goes (fun x => a x || b x) t'' where
  bound x hx := h'.bound x (h.bound x hx)
  same x hx := by
    obtain ⟨hFirst, hSecond⟩ := Bool.or_eq_false_iff.mp hx
    rw [h'.same x hSecond, h.same x hFirst]

theorem Goes.mono (h : t.Goes a t') (hMono : ∀ x, b x = false → a x = false) : t.Goes b t' :=
  ⟨h.bound, fun x hx => h.same x (hMono x hx)⟩

theorem goes_assign (x : Symbol) : t.Goes (fun y => x == y) (t.assign x) where
  bound y hy := by
    rw [assign, Function.update_apply]
    split
    · rfl
    · exact hy
  same y hy := Function.update_of_ne (ne_of_beq_false hy).symm _ _

theorem goes_branches {first second : Standings → Option Standings}
    (hFirst : ∀ {t t'}, first t = some t' → t.Goes a t')
    (hSecond : ∀ {t t'}, second t = some t' → t.Goes b t') (h : branches first second t = some t') :
    t.Goes (fun x => a x || b x) t' := by
  obtain ⟨u, hu, h⟩ := Option.bind_eq_some_iff.mp h
  obtain ⟨v, hv, h⟩ := Option.bind_eq_some_iff.mp h
  cases h
  have hGoes := hFirst hu
  have hGoes' := hSecond hv
  constructor
  · intro x hx
    have hLeft := hGoes.bound x hx
    have hRight := hGoes'.bound x (by simp [Standing.hide, hx])
    simp [Standing.join, hLeft, hRight]
  · intro x hx
    obtain ⟨ha, hb⟩ := Bool.or_eq_false_iff.mp hx
    have hSame : (t x).hide (u x) = t x := by
      rw [hGoes.same x ha, Standing.hide, if_neg (by simp)]
    show (u x).join (v x) = t x
    rw [hGoes'.same x hb, hSame, hGoes.same x ha]
    cases t x <;> rfl

theorem goes_loop {test body : Standings → Option Standings}
    (hTest : ∀ {t t'}, test t = some t' → t.Goes a t')
    (hBody : ∀ {t t'}, body t = some t' → t.Goes b t') (h : t.loop a b test body = some t') :
    t.Goes (fun x => a x || b x) t' := by
  obtain ⟨u, hu, h⟩ := Option.bind_eq_some_iff.mp h
  obtain ⟨v, hv, h⟩ := Option.bind_eq_some_iff.mp h
  cases h
  have hGoes := hTest hu
  constructor
  · intro x hx
    have hLeft := hGoes.bound x (by simp [Standing.again, hx])
    simp [Standing.leave, hx, hLeft]
  · intro x hx
    obtain ⟨ha, hb⟩ := Bool.or_eq_false_iff.mp hx
    have hSame : u x = t x := by simp [hGoes.same x ha, Standing.again, ha, hb]
    show (t x).leave (a x) (u x) (v x) = t x
    rw [(hBody hv).same x hb, hSame, Standing.leave]
    split
    · rename_i hLeaves
      exact hLeaves.2.2.symm
    · rfl

end Standings

mutual
theorem Node.goes_standings :
    ∀ (n : Node) {t t' : Standings}, n.standings t = some t' → t.Goes (n.assigns ·) t'
  | .atom _ a, t, t', h => by
    obtain rfl : t = t' := by cases a <;> first | exact Option.some.inj h | cases h
    exact .refl t
  | .var _ v, t, t', h => by
    rw [Node.standings] at h
    split at h
    · cases h
      exact .refl t
    · cases h
  | .seq _ stmts, t, t', h => by
    rw [Node.standings] at h
    split at h
    · cases h
    · exact goes_listStandings stmts h
  | .cond _ form test body other, t, t', h => by
    cases form with
    | whenTrue =>
      obtain ⟨u, hu, h⟩ := Option.bind_eq_some_iff.mp h
      refine ((Node.goes_standings test hu).trans (Standings.goes_branches
        (goes_optionStandings body) (goes_optionStandings other) h)).mono fun x hx => ?_
      simpa [Node.assigns, and_assoc] using hx
    | whenFalse =>
      obtain ⟨u, hu, h⟩ := Option.bind_eq_some_iff.mp h
      refine ((Node.goes_standings test hu).trans (Standings.goes_branches
        (goes_optionStandings other) (goes_optionStandings body) h)).mono fun x hx => ?_
      rw [Node.assigns] at hx
      simp only [Bool.or_eq_false_iff] at hx ⊢
      exact ⟨hx.1.1, hx.2, hx.1.2⟩
  | .loop _ test body, t, t', h =>
    Standings.goes_loop (Node.goes_standings test) (goes_optionStandings body) h
  | .assign _ target value, t, t', h => by
    cases target with
    | var _ v =>
      rw [Node.standings] at h
      split at h
      · cases h
      · obtain ⟨u, hu, rfl⟩ := Option.map_eq_some_iff.mp h
        refine ((Node.goes_standings value hu).trans (Standings.goes_assign v.name)).mono
          fun x hx => ?_
        rw [Node.assigns] at hx
        simp only [Bool.or_eq_false_iff] at hx ⊢
        exact ⟨hx.2, hx.1.1⟩
    | _ => cases h
  | .call _ receiver _ args block, t, t', h => by
    cases block with
    | none =>
      obtain ⟨u, hu, h⟩ := Option.bind_eq_some_iff.mp h
      exact (goes_optionStandings receiver hu).trans (goes_listStandings args h)
    | some b => cases h
  | .choose .., _, _, h | .logic .., _, _, h | .jump .., _, _, h | .multi .., _, _, h
  | .isA .., _, _, h | .define .., _, _, h | .interp .., _, _, h | .range .., _, _, h
  | .regex .., _, _, h | .array .., _, _, h | .hash .., _, _, h | .require .., _, _, h => by
    cases h

theorem goes_optionStandings : ∀ (n : Option Node) {t t' : Standings},
    optionStandings n t = some t' → t.Goes (optionAssigns · n) t'
  | none, t, t', h => by
    cases h
    exact .refl t
  | some n, _, _, h => Node.goes_standings n h

theorem goes_listStandings : ∀ (ns : List Node) {t t' : Standings},
    listStandings ns t = some t' → t.Goes (listAssigns · ns) t'
  | [], t, t', h => by
    cases h
    exact .refl t
  | n :: ns, _, _, h => by
    obtain ⟨u, hu, h⟩ := Option.bind_eq_some_iff.mp h
    exact (Node.goes_standings n hu).trans (goes_listStandings ns h)
end

/-! ## What is not assigned -/

mutual
theorem Node.spares_of_assigns_eq_false {x : Symbol} :
    ∀ n : Node, n.assigns x = false → n.Spares Node.noRequire x
  | .atom _ a, _ => Node.spares_atom a
  | .var _ v, h => Node.spares_var.mpr fun hOut => by
    rw [Node.assigns, hOut] at h
    cases h
  | .seq _ stmts, h => Node.spares_seq.mpr (spares_of_listAssigns_eq_false stmts h)
  | .cond _ _ test body other, h => by
    simp only [Node.assigns, Bool.or_eq_false_iff] at h
    exact Node.spares_cond.mpr ⟨Node.spares_of_assigns_eq_false test h.1.1,
      spares_of_optionAssigns_eq_false body h.1.2, spares_of_optionAssigns_eq_false other h.2⟩
  | .loop _ test body, h => by
    simp only [Node.assigns, Bool.or_eq_false_iff] at h
    exact Node.spares_loop.mpr ⟨Node.spares_of_assigns_eq_false test h.1,
      spares_of_optionAssigns_eq_false body h.2⟩
  | .assign _ target value, h => by
    cases target with
    | var _ v =>
      simp only [Node.assigns, Bool.or_eq_false_iff] at h
      obtain ⟨⟨hName, hOut⟩, hValue⟩ := h
      refine Node.spares_assign.mpr ⟨ne_of_beq_false hName, ?_,
        Node.spares_of_assigns_eq_false value hValue⟩
      exact Node.spares_var.mpr fun hOut' => by
        rw [hOut'] at hOut
        cases hOut
    | _ => cases h
  | .call _ receiver _ args block, h => by
    cases block with
    | none =>
      simp only [Node.assigns, Bool.or_eq_false_iff] at h
      exact Node.spares_call.mpr ⟨spares_of_optionAssigns_eq_false receiver h.1,
        spares_of_listAssigns_eq_false args h.2, by simp⟩
    | some b => cases h
  | .choose .., h | .logic .., h | .jump .., h | .multi .., h | .isA .., h | .define .., h
  | .interp .., h | .range .., h | .regex .., h | .array .., h | .hash .., h
  | .require .., h => by cases h

theorem spares_of_optionAssigns_eq_false {x : Symbol} :
    ∀ n : Option Node, optionAssigns x n = false → ∀ m ∈ n, m.Spares Node.noRequire x
  | none, _ => by simp
  | some n, h => by
    rintro _ ⟨⟩
    exact Node.spares_of_assigns_eq_false n h

theorem spares_of_listAssigns_eq_false {x : Symbol} :
    ∀ ns : List Node, listAssigns x ns = false → ∀ n ∈ ns, n.Spares Node.noRequire x
  | [], _ => List.forall_mem_nil _
  | n :: ns, h => by
    simp only [listAssigns, Bool.or_eq_false_iff] at h
    exact List.forall_mem_cons.mpr ⟨Node.spares_of_assigns_eq_false n h.1,
      spares_of_listAssigns_eq_false ns h.2⟩
end

end CoreTree
