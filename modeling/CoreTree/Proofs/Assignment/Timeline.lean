import CoreTree.Proofs.Runs.Code
import CoreTree.Proofs.Versions.Growth

/-! # The versions of one variable in time

Along the moves of a method scope the next write of a variable goes up: each source write takes
it and leaves it one higher, and what a bridge writes stays below it.
-/
namespace CoreTree
set_option autoImplicit false

namespace Move

/-- The versions that source writes gave to the variable, in the order of normalization. What
was normalized apart does not count. -/
def writes (x : Symbol) (moves : List Move) : List Nat :=
  moves.filterMap fun
    | .wrote y version => if y = x then some version else none
    | _ => none

/-- The scopes that were reached, in order. -/
def scopes (moves : List Move) : List Scope :=
  moves.filterMap fun
    | .reached s => some s
    | _ => none

/-- The names that blocks took as parameters. -/
def blockParams (moves : List Move) : List Symbol :=
  moves.flatMap fun
    | .boundParams params => params
    | _ => []

/-- The variable is neither written nor bridged, and no scope is reached. -/
def Spares (x : Symbol) : Move → Prop
  | .wrote y _ => y ≠ x
  | .bridged _ | .reached _ => False
  | .boundParams _ | .apart .. | .load _ | .splice _ => True

variable {x : Symbol} {m : Move} {moves moves' : List Move}

theorem scopes_append : scopes (moves ++ moves') = scopes moves ++ scopes moves' :=
  List.filterMap_append

theorem blockParams_append :
    blockParams (moves ++ moves') = blockParams moves ++ blockParams moves' :=
  List.flatMap_append

theorem Spares.writes (h : m.Spares x) : writes x (m :: moves) = writes x moves := by
  cases m with
  | wrote y v =>
    have hNe : y ≠ x := h
    simp [Move.writes, hNe]
  | bridged | reached => cases h
  | boundParams | apart | load | splice => rfl

theorem Spares.scopes (h : m.Spares x) : scopes (m :: moves) = scopes moves := by
  cases m with
  | bridged | reached => cases h
  | wrote | boundParams | apart | load | splice => rfl

end Move

open Move

/-- From one next version of the variable to another. -/
inductive Timeline (x : Symbol) : Nat → List Move → Nat → Prop where
  | done {low high : Nat} (h : low ≤ high) : Timeline x low [] high
  | wrote {low version high : Nat} {moves : List Move} (h : low ≤ version)
    (hRest : Timeline x (version + 1) moves high) :
    Timeline x low (.wrote x version :: moves) high
  | bridged {low mid high : Nat} {bridges : List Bridge} {moves : List Move} (h : low ≤ mid)
    (hTargets : ∀ b ∈ bridges, b.name = x → b.target < mid) (hRest : Timeline x mid moves high) :
    Timeline x low (.bridged bridges :: moves) high
  | reached {low high : Nat} {s : Scope} {moves : List Move} (h : low ≤ s.next x)
    (hRest : Timeline x (s.next x) moves high) : Timeline x low (.reached s :: moves) high
  | spared {low high : Nat} {m : Move} {moves : List Move} (h : m.Spares x)
    (hRest : Timeline x low moves high) : Timeline x low (m :: moves) high

namespace Timeline

variable {x : Symbol} {low low' mid high : Nat} {moves moves' : List Move}

theorem weaken (h : Timeline x low moves high) (hLe : low' ≤ low) :
    Timeline x low' moves high := by
  induction h generalizing low' with
  | done h => exact .done (hLe.trans h)
  | wrote h hRest _ => exact .wrote (hLe.trans h) hRest
  | bridged h hTargets hRest _ => exact .bridged (hLe.trans h) hTargets hRest
  | reached h hRest _ => exact .reached (hLe.trans h) hRest
  | spared h _ ih => exact .spared h (ih hLe)

theorem append (h : Timeline x low moves mid) (h' : Timeline x mid moves' high) :
    Timeline x low (moves ++ moves') high := by
  induction h with
  | done h => exact h'.weaken h
  | wrote h _ ih => exact .wrote h (ih h')
  | bridged h hTargets _ ih => exact .bridged h hTargets (ih h')
  | reached h _ ih => exact .reached h (ih h')
  | spared h _ ih => exact .spared h (ih h')

theorem le_of_mem_writes (h : Timeline x low moves high) : ∀ v ∈ writes x moves, low ≤ v := by
  induction h with
  | done => exact nofun
  | @wrote low version _ moves h _ ih =>
    intro v hv
    obtain rfl | hv : v = version ∨ v ∈ writes x moves := by
      simpa [writes] using hv
    · exact h
    · exact h.trans ((Nat.le_succ _).trans (ih v hv))
  | bridged h _ _ ih => exact fun v hv => h.trans (ih v hv)
  | reached h _ ih => exact fun v hv => h.trans (ih v hv)
  | spared h _ ih =>
    rw [h.writes]
    exact ih

theorem le_of_mem_scopes (h : Timeline x low moves high) :
    ∀ s ∈ scopes moves, low ≤ s.next x := by
  induction h with
  | done => exact nofun
  | wrote h _ ih => exact fun s hs => h.trans ((Nat.le_succ _).trans (ih s hs))
  | bridged h _ _ ih => exact fun s hs => h.trans (ih s hs)
  | @reached low _ s moves h _ ih =>
    intro t ht
    obtain rfl | ht : t = s ∨ t ∈ scopes moves := by simpa [scopes] using ht
    · exact h
    · exact h.trans (ih t ht)
  | spared h _ ih =>
    rw [h.scopes]
    exact ih

/-- Source writes give ever higher versions. -/
theorem pairwise_writes (h : Timeline x low moves high) :
    (writes x moves).Pairwise (· < ·) := by
  induction h with
  | done => exact .nil
  | @wrote _ version _ moves _ hRest ih =>
    have hWrites : writes x (.wrote x version :: moves) = version :: writes x moves := by
      simp [writes]
    rw [hWrites]
    exact .cons (fun v hv => hRest.le_of_mem_writes v hv) ih
  | bridged _ _ _ ih => exact ih
  | reached _ _ ih => exact ih
  | spared h _ ih =>
    rw [h.writes]
    exact ih

/-- The next write never goes back. -/
theorem pairwise_scopes (h : Timeline x low moves high) :
    ((scopes moves).map (·.next x)).Pairwise (· ≤ ·) := by
  induction h with
  | done => exact .nil
  | wrote _ _ ih => exact ih
  | bridged _ _ _ ih => exact ih
  | @reached _ _ s moves _ hRest ih =>
    have hScopes : scopes (.reached s :: moves) = s :: scopes moves := by simp [scopes]
    rw [hScopes, List.map_cons]
    refine .cons (fun n hn => ?_) ih
    obtain ⟨t, ht, rfl⟩ := List.mem_map.mp hn
    exact hRest.le_of_mem_scopes t ht
  | spared h _ ih =>
    rw [h.scopes]
    exact ih

/-- No source write makes a version that a bridge wrote before. -/
theorem target_not_mem_writes (h : Timeline x low moves high) {before after : List Move}
    {bridges : List Bridge} (hMoves : moves = before ++ .bridged bridges :: after) :
    ∀ b ∈ bridges, b.name = x → b.target ∉ writes x after := by
  induction h generalizing before with
  | done => exact absurd hMoves (by simp)
  | bridged _ hTargets hRest ih =>
    obtain _ | ⟨m, before⟩ := before
    · obtain ⟨⟨⟩, rfl⟩ := List.cons.inj hMoves
      intro b hb hName hMem
      exact (hTargets b hb hName).not_ge (hRest.le_of_mem_writes _ hMem)
    · exact ih (List.cons.inj hMoves).2
  | wrote _ _ ih | reached _ _ ih =>
    obtain _ | ⟨m, before⟩ := before
    · cases (List.cons.inj hMoves).1
    · exact ih (List.cons.inj hMoves).2
  | spared hSpares _ ih =>
    obtain _ | ⟨m, before⟩ := before
    · rw [(List.cons.inj hMoves).1] at hSpares
      cases hSpares
    · exact ih (List.cons.inj hMoves).2

end Timeline

end CoreTree
