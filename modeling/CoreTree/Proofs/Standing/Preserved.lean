import CoreTree.Proofs.Preservation
import CoreTree.Proofs.Requires.Answers
import CoreTree.Proofs.Standing.OfNode

/-! # What loops bring out of their bodies

From an empty scope a loop meets variables that no version reaches, and copies nothing back to them.
Where the body assigns such a variable before it reads it, that is harmless. Where it reads it
first, the read names version 0 each time round, whatever the last round assigned; and a variable
that is known from the branch not taken is set to `nil` behind the branch of the loop.
-/
namespace CoreTree
set_option autoImplicit false

variable {V : Type}

theorem Standings.agree_empty (I : Interp V) (rounds : Nat) (t : Standings)
    {m : Machine Symbol V} {w : Machine Cell V} (hLocals : ∀ x, m.locals x = I.nil)
    (hCells : ∀ c, w.locals c = I.nil) (hWorld : m.world = w.world) :
    t.Agree I rounds .empty m w where
  reads x _ r hr := by
    rw [Scope.reads, SymbolMap.get?_empty] at hr
    cases hr
  unset x _ _ := ⟨hLocals x, fun v => hCells (x, v)⟩
  temps := nofun
  world := hWorld

theorem Scope.stands_empty : Stands .empty fun _ => .new where
  new x _ := SymbolMap.get?_empty x
  hidden := nofun
  bound := nofun

theorem Scope.allSound_empty : AllSound .empty := by
  intro x _ v r hv
  rw [SymbolMap.get?_empty] at hv
  cases hv

/-- A tree that normalizes from an empty scope means what it means as it is written if it is sure
of each variable where the tree reads it. Then every read sees what was assigned last, and behind
the tree so does a read of every variable that is not lost. -/
theorem sure_reads_see_last_write (I : Interp V) (rounds depth : Nat) (file : Option SourcePath)
    {p : Program} {n : Node} {t : Standings} (hSure : n.standings (fun _ => .new) = some t)
    {o : Outcome} {st : NormalState}
    (hRun : (n.pending (answerRequire depth file)).run.run ⟨p, .empty⟩ = .ok o st)
    {m : Machine Symbol V} {w : Machine Cell V} (hLocals : ∀ x, m.locals x = I.nil)
    (hCells : ∀ c, w.locals c = I.nil) (hWorld : m.world = w.world) :
    SameRun ((n.named I rounds).on m) ((o.node.versioned I rounds).on w) fun named versioned =>
      ∀ x, t x ≠ .lost → versioned (x, (st.scope.reads x).getD 0) = named x := by
  have hSees : (n.pending (answerRequire depth file)).Sees I rounds (n.named I rounds) _ t :=
    Node.sees_pending (keepsLoader_answerRequire depth file) n hSure
  obtain ⟨_, _, _, hRelated⟩ :=
    (hSees ⟨p, .empty⟩ Scope.allSound_empty Scope.stands_empty).of_ok hRun
  refine ((hRelated m w (Standings.agree_empty I rounds _ hLocals hCells hWorld)).mono
    fun _ m' w' hAgree => ⟨hAgree.world, fun x hx => ?_⟩).sameRun
  exact Setting.Agree.value hAgree hx

namespace Sample

/-- Nothing has happened yet, and no local holds anything. -/
def blank {K : Type} : Machine K Atom := ⟨fun _ => .nil, fun _ => .nil, ⟨fun _ => .nil, []⟩⟩

/-- `while ask() ; total = ask() ; flag = total end ; ask(flag, total)` -/
def gathering : Node := .seq .nowhere [
  .loop .nowhere (ask []) (some (.seq .nowhere [
    write total (ask []), write flag (readVar total)])),
  ask [readVar flag, readVar total]]

example : ((gathering.named interp 2).on blank).2.world.events.head? =
    some (.call none .append [.int 2, .int 2]) := rfl

theorem gathering_sees_last_write : ∃ t o st,
    gathering.standings (fun _ => .new) = some t ∧
    (gathering.pending (answerRequire 0 none)).run.run ⟨program, .empty⟩ = .ok o st ∧
    SameRun ((gathering.named interp 2).on blank) ((o.node.versioned interp 2).on blank)
      fun named versioned =>
        ∀ x, t x ≠ .lost → versioned (x, (st.scope.reads x).getD 0) = named x := by
  obtain ⟨t, hSure⟩ : ∃ t, gathering.standings (fun _ => .new) = some t := ⟨_, rfl⟩
  obtain ⟨o, st, hRun⟩ : ∃ o st, (gathering.pending (answerRequire 0 none)).run.run
      ⟨program, .empty⟩ = .ok o st := ⟨_, _, rfl⟩
  exact ⟨t, o, st, hSure, hRun, sure_reads_see_last_write interp 2 0 none hSure hRun
    (fun _ => rfl) (fun _ => rfl) rfl⟩

/-- The second call is answered with `true`, every other with `nil`. -/
def hesitant : Interp Atom := { interp with
  answer := fun u => (if u.events.length = 2 then .bool true else .nil, u.fields) }

/-- `if ask() then total = 1 else while ask() ; ask(total) ; total = 2 end end ; ask(total)` -/
def waiting : Node := .seq .nowhere [
  .cond .nowhere .whenTrue (ask []) (some (write total (.int .nowhere 1)))
    (some (.loop .nowhere (ask []) (some (.seq .nowhere [
      ask [readVar total], write total (.int .nowhere 2)])))),
  ask [readVar total]]

/-- The loop assigns version 1, which nothing reads, and behind it version 2 is `nil`. -/
def waited : Node := .seq .nowhere [
  .cond .nowhere .whenTrue (ask [])
    (some (.seq .nowhere [
      .assign .nowhere (.temp .nowhere ⟨14⟩) (write total (.int .nowhere 1)),
      .assign .nowhere (.var .nowhere ⟨total, 2, false⟩) (readVar total), .temp .nowhere ⟨14⟩]))
    (some (.seq .nowhere [
      .assign .nowhere (.temp .nowhere ⟨15⟩) (.loop .nowhere (ask []) (some (.seq .nowhere [
        ask [readVar total],
        .assign .nowhere (.var .nowhere ⟨total, 1, false⟩) (.int .nowhere 2)]))),
      .assign .nowhere (.var .nowhere ⟨total, 2, false⟩) (.nil .nowhere), .temp .nowhere ⟨15⟩])),
  ask [.var .nowhere ⟨total, 2, false⟩]]

example : waiting.standings (fun _ => .new) = none := rfl

/-- The loop runs once and assigns `2`, but the call behind it is given `nil`. -/
theorem waiting_loses_total : (program.normalize none waiting).1 = .ok waited ∧
    ((waiting.named hesitant 2).on blank).2.world.events.head? =
      some (.call none .append [.int 2]) ∧
    ((waited.versioned hesitant 2).on blank).2.world.events.head? =
      some (.call none .append [.nil]) :=
  ⟨by decide +kernel, rfl, rfl⟩

end Sample

end CoreTree
