import CoreTree.Proofs.Assignment.Timeline
import CoreTree.Proofs.Runs.Steps
import CoreTree.Proofs.Runs.Sugar
import CoreTree.Proofs.Runs.Weight

/-! # Normalizing moves on

The code of every construct moves the versions of each variable on, whatever its parts do to the
scope in between. Only a file that is required starts from nothing.
-/
namespace CoreTree
set_option autoImplicit false

open Move

/-- From a scope along moves to another scope. Parameters of blocks are left out, for they start
afresh while they hide a variable. -/
structure Scope.Advances (s : Scope) (moves : List Move) (s' : Scope) : Prop where
  grows : s.Grows s'
  sound : s'.AllSound
  reached : ∀ t ∈ scopes moves, t.AllSound
  timeline : ∀ x ∉ blockParams moves, Timeline x (s.next x) moves (s'.next x)

namespace Scope

variable {s s' s'' : Scope} {moves moves' : List Move}

theorem Advances.refl (h : s.AllSound) : s.Advances [] s :=
  ⟨.refl s, h, nofun, fun _ _ => .done le_rfl⟩

theorem Advances.append (h : s.Advances moves s') (h' : s'.Advances moves' s'') :
    s.Advances (moves ++ moves') s'' where
  grows := h.grows.trans h'.grows
  sound := h'.sound
  reached t ht := by
    rw [scopes_append] at ht
    exact (List.mem_append.mp ht).elim (h.reached t) (h'.reached t)
  timeline x hx := by
    rw [blockParams_append, List.mem_append, not_or] at hx
    exact (h.timeline x hx.1).append (h'.timeline x hx.2)

/-- To go on in another scope. -/
theorem Advances.reach (h : s.Grows s') (hSound : s'.AllSound) : s.Advances [.reached s'] s' where
  grows := h
  sound := hSound
  reached t ht := by
    obtain rfl : t = s' := by simpa [scopes] using ht
    exact hSound
  timeline x _ := .reached (h.next_le x) (.done le_rfl)

/-- To go on in another scope past some bridges. -/
theorem Advances.bridge {bridges : List Bridge} (h : s.Grows s') (hSound : s'.AllSound)
    (hTargets : ∀ b ∈ bridges, b.target < s'.next b.name) :
    s.Advances [.bridged bridges, .reached s'] s' where
  grows := h
  sound := hSound
  reached := (Advances.reach (.refl s') hSound).reached
  timeline x _ := .bridged (h.next_le x) (fun b hb hName => hName ▸ hTargets b hb)
    (.reached le_rfl (.done le_rfl))

theorem advances_write (h : s.AllSound) (x : Symbol) :
    s.Advances [.wrote x (s.write x).1, .reached (s.write x).2] (s.write x).2 where
  grows := grows_write s x
  sound := h.write x
  reached := (Advances.reach (.refl _) (h.write x)).reached
  timeline y _ := by
    by_cases hName : x = y
    · subst hName
      rw [fst_write]
      refine .wrote le_rfl (.reached ?_ (.done le_rfl))
      rw [next_write, if_pos rfl]
    · exact .spared hName (.reached ((grows_write s x).next_le y) (.done le_rfl))

end Scope

namespace Code

variable {α β : Type}

/-- Runs of the code move on. -/
def Steady (c : Code α) : Prop :=
  ∀ file st moves a st', Runs file c st moves (.ok a st') → st.scope.AllSound →
    st.scope.Advances moves st'.scope

/-! ## Steps that leave the scope alone or write -/

theorem steady_pure (a : α) : (Pure.pure a : Code α).Steady := by
  intro file st moves b st' hRuns hSound
  obtain ⟨rfl, rfl, rfl⟩ := hRuns.of_pure
  exact .refl hSound

theorem Steady.bind {c : Code α} {f : α → Code β} (h : c.Steady) (hNext : ∀ a, (f a).Steady) :
    (c >>= f).Steady := by
  intro file st moves b st' hRuns hSound
  obtain ⟨a, mid, first, rest, hFirst, hRest, rfl⟩ := hRuns.of_bind
  have hAdvances := h file st first a mid hFirst hSound
  exact hAdvances.append (hNext a file mid rest b st' hRest hAdvances.sound)

theorem steady_allocate (act : Norm α) (hAct : act.Allocating) :
    (Code.act (.allocate act hAct)).Steady := by
  intro file st moves b st' hRuns hSound
  obtain ⟨rfl, _, hScope⟩ := hRuns.of_allocate
  rw [hScope]
  exact .refl hSound

theorem steady_write (v : Var) : (Code.act (.write v)).Steady := by
  intro file st moves w st' hRuns hSound
  obtain ⟨rfl, rfl, rfl⟩ := hRuns.of_write
  exact Scope.advances_write hSound v.name

theorem steady_useVar (s : Span) (v : Var) : (useVar s v).Steady := by
  unfold useVar
  split
  · exact steady_write v
  · intro file st moves w st' hRuns hSound
    obtain ⟨rfl, _, _, rfl⟩ := hRuns.of_read
    exact .refl hSound

/-- What is normalized apart has a scope of its own. -/
theorem steady_apart (params : List Symbol) (n : Node) : (apart params n).Steady := by
  intro file st moves m st' hRuns hSound
  obtain ⟨inner, o, mid, _, rfl, rfl, rfl⟩ := hRuns.of_apart
  exact ⟨.refl _, hSound, nofun, fun x _ => .spared trivial (.done le_rfl)⟩

theorem steady_optionApart (params : List Symbol) (n : Option Node) :
    (optionApart params n).Steady := by
  cases n with
  | none => exact steady_pure _
  | some n => exact (steady_apart params n).bind fun _ => steady_pure _

/-! ## Parts in order -/

theorem steady_node {n : Node} (h : (transform n).Steady) : (node n).Steady :=
  h.bind fun _ => steady_pure _

theorem steady_optionNode {n : Option Node} (h : ∀ m, n = some m → (transform m).Steady) :
    (optionNode n).Steady := by
  cases n with
  | none => exact steady_pure _
  | some n => exact (steady_node (h n rfl)).bind fun _ => steady_pure _

theorem steady_nodes {ns : List Node} (h : ∀ n ∈ ns, (transform n).Steady) :
    (nodes ns).Steady := by
  induction ns with
  | nil => exact steady_pure _
  | cons n ns ih =>
    obtain ⟨hHead, hRest⟩ := List.forall_mem_cons.mp h
    exact (steady_node hHead).bind fun _ => (ih hRest).bind fun _ => steady_pure _

theorem steady_target {n : Node} (h : (transform n).Steady) : (target n).Steady := by
  cases n with
  | var s v => exact (steady_write v).bind fun _ => steady_pure _
  | _ => exact steady_node h

theorem steady_targets {ns : List Node} (h : ∀ n ∈ ns, (transform n).Steady) :
    (targets ns).Steady := by
  induction ns with
  | nil => exact steady_pure _
  | cons n ns ih =>
    obtain ⟨hHead, hRest⟩ := List.forall_mem_cons.mp h
    exact (steady_target hHead).bind fun _ => (ih hRest).bind fun _ => steady_pure _

theorem steady_statements {ns : List Node} (h : ∀ n ∈ ns, (transform n).Steady) :
    (statements ns).Steady := by
  induction ns with
  | nil => exact steady_pure _
  | cons n ns ih =>
    obtain ⟨hHead, hRest⟩ := List.forall_mem_cons.mp h
    refine hHead.bind fun o => ?_
    split
    · exact steady_pure _
    · exact (ih hRest).bind fun _ => steady_pure _

theorem steady_entryNodes {es : List (HashEntry Node)}
    (h : ∀ e ∈ es, (transform e.key).Steady ∧ (transform e.value).Steady) :
    (entryNodes es).Steady := by
  induction es with
  | nil => exact steady_pure _
  | cons e es ih =>
    obtain ⟨⟨hKey, hValue⟩, hRest⟩ := List.forall_mem_cons.mp h
    exact (steady_node hKey).bind fun _ => (steady_node hValue).bind fun _ =>
      (ih hRest).bind fun _ => steady_pure _

/-! ## Branches, loops and blocks -/

/-- A branch goes on from where it starts, which is past where the code stood. -/
theorem advances_of_ranBranch {file : Option SourcePath} {start : Scope}
    {n : Option Node} {st st' : NormalState} {moves : List Move} {e : Option BranchEnd}
    (h : Runs.RanBranch file start n st moves e st')
    (hSteady : ∀ m, n = some m → (transform m).Steady) (hGrows : st.scope.Grows start)
    (hSound : st.scope.AllSound) (hStart : start.AllSound) :
    st.scope.Advances moves st'.scope ∧ (e = none → st' = st) ∧
      ∀ b, e = some b → b.scope = st'.scope ∧ start.Grows b.scope := by
  cases n with
  | none =>
    obtain ⟨rfl, rfl, rfl⟩ := h
    exact ⟨.refl hSound, fun _ => rfl, nofun⟩
  | some n =>
    obtain ⟨o, inner, hRuns, rfl, rfl⟩ := h
    have hInner := hSteady n rfl file _ _ _ _ hRuns hStart
    refine ⟨(Scope.Advances.reach hGrows hStart).append hInner, nofun, ?_⟩
    rintro _ ⟨⟩
    exact ⟨rfl, hInner.grows⟩

theorem steady_ifElse (s : Span) {test : Node} {onTrue onFalse : Option Node}
    (hTest : (transform test).Steady) (hTrue : ∀ m, onTrue = some m → (transform m).Steady)
    (hFalse : ∀ m, onFalse = some m → (transform m).Steady) :
    (ifElse s test onTrue onFalse).Steady := by
  intro file st moves o st' hRuns hSound
  obtain ⟨testNode, before, first, rest, thenEnd, elseEnd, elseStart, join, hTestRuns, hRan, rfl⟩ :=
    hRuns.of_ifElse
  have hBefore := steady_node hTest file _ _ _ _ hTestRuns hSound
  refine hBefore.append ?_
  obtain ⟨mid, last, thenMoves, elseMoves, hThen, hElse, rfl⟩ := hRan.branches
  obtain ⟨hThenAdvances, hThenNone, hThenSome⟩ :=
    advances_of_ranBranch hThen hTrue (.refl _) hBefore.sound hBefore.sound
  -- the else branch reads as before, and writes past the then branch
  have hStart : mid.scope.Grows elseStart ∧ elseStart.AllSound := by
    rw [hRan.starts]
    cases thenEnd with
    | none =>
      rw [hThenNone rfl]
      exact ⟨.refl _, hBefore.sound⟩
    | some b =>
      obtain ⟨hScope, hGrows⟩ := hThenSome b rfl
      rw [← hScope]
      exact ⟨Scope.grows_elseStart _ _, hBefore.sound.elseStart hGrows⟩
  obtain ⟨hElseAdvances, hElseNone, hElseSome⟩ :=
    advances_of_ranBranch hElse hFalse hStart.1 hThenAdvances.sound hStart.2
  have hBranches : Scope.BranchesGrow before.scope (thenEnd.map (·.scope)) elseStart
      (elseEnd.map (·.scope)) := by
    refine ⟨fun t ht => ?_, ?_, fun t ht => ?_⟩
    · obtain ⟨b, hb, rfl⟩ := Option.map_eq_some_iff.mp ht
      obtain ⟨hScope, hGrows⟩ := hThenSome b hb
      exact ⟨hGrows, hScope ▸ hThenAdvances.sound⟩
    · rw [hRan.starts]
      cases thenEnd <;> rfl
    · obtain ⟨b, hb, rfl⟩ := Option.map_eq_some_iff.mp ht
      obtain ⟨hScope, hGrows⟩ := hElseSome b hb
      exact ⟨hGrows, hScope ▸ hElseAdvances.sound⟩
  obtain ⟨hGrows, hJoined, hTargets⟩ := hBranches.join hBefore.sound
  rw [← hRan.joins] at hGrows hJoined hTargets
  have hLast : (elseEnd.map (·.scope) <|> thenEnd.map (·.scope)).getD before.scope =
      last.scope := by
    cases elseEnd with
    | some b => exact (hElseSome b rfl).1
    | none =>
      rw [hElseNone rfl]
      cases thenEnd with
      | some b => exact (hThenSome b rfl).1
      | none => rw [hThenNone rfl]; rfl
  rw [hLast] at hGrows
  rw [hRan.scope]
  exact (hThenAdvances.append hElseAdvances).append (.bridge hGrows hJoined hTargets)

theorem steady_loop (s : Span) {test : Node} {body : Option Node}
    (hTest : (transform test).Steady) (hBody : ∀ m, body = some m → (transform m).Steady) :
    (loop s test body).Steady := by
  intro file st moves o st' hRuns hSound
  obtain ⟨testNode, entry, first, rest, e, last, hTestRuns, hRan, rfl, rfl⟩ := hRuns.of_loop
  have hEntry := steady_node hTest file _ _ _ _ hTestRuns hSound
  obtain ⟨hLast, _⟩ := advances_of_ranBranch hRan hBody (.refl _) hEntry.sound hEntry.sound
  have hRewound := Scope.grows_rewindLoop entry.scope last.scope
  refine (hEntry.append hLast).append (.bridge hRewound
    (hEntry.sound.rewindLoop hLast.grows hLast.sound) fun b hb => ?_)
  refine lt_of_lt_of_le ?_ (hRewound.next_le _)
  obtain hb | hb := List.mem_append.mp hb
  · exact Scope.target_lt_of_mem_loopBridges hLast.grows hEntry.sound hb
  · exact Scope.target_lt_of_mem_loopBridges (hEntry.grows.trans hLast.grows) hSound
      (List.mem_filter.mp hb).1

theorem steady_runBlock (s : Span) {b : Block Node}
    (hBody : ∀ m, b.body = some m → (transform m).Steady) : (runBlock s b).Steady := by
  intro file st moves b' st' hRuns hSound
  obtain ⟨e, last, inner, hRan, rfl, hScope⟩ := hRuns.of_runBlock
  have hBound := hSound.bindParams b.params
  obtain ⟨hLast, _⟩ := advances_of_ranBranch hRan hBody (.refl _) hBound hBound
  have hNow := Scope.grows_unbindParams hLast.grows
  have hNowSound := hSound.unbindParams b.params hLast.sound
  have hRewound := Scope.grows_rewindBlock
    (Scope.unbindParams last.scope (Scope.bindParams st.scope b.params).1)
    (Scope.loopBridges st.scope
      (Scope.unbindParams last.scope (Scope.bindParams st.scope b.params).1))
  have hRewoundSound := hSound.rewindBlock hNow hNowSound
  have hEnd := Scope.Advances.bridge hRewound hRewoundSound fun b hb =>
    lt_of_lt_of_le (Scope.target_lt_of_mem_loopBridges hNow hSound hb) (hRewound.next_le _)
  rw [hScope]
  refine ⟨hNow.trans hRewound, hRewoundSound, fun t ht => ?_, fun x hx => ?_⟩
  · rw [List.append_assoc, scopes_append, scopes_append] at ht
    simp only [List.mem_append] at ht
    obtain ht | ht | ht := ht
    · obtain rfl : t = (Scope.bindParams st.scope b.params).2 := by simpa [scopes] using ht
      exact hBound
    · exact hLast.reached t ht
    · exact hEnd.reached t ht
  · -- a variable that is no parameter comes into the block and out of it as it is
    rw [blockParams_append, blockParams_append, List.mem_append, List.mem_append] at hx
    have hParam : x ∉ b.params := fun hMem => hx (.inl (.inl (by simpa [blockParams] using hMem)))
    have hInner : x ∉ blockParams inner := fun hMem => hx (.inl (.inr hMem))
    have hIn : (Scope.bindParams st.scope b.params).2.next x = st.scope.next x := by
      rw [Scope.next, Scope.get?_bindParams, if_neg hParam, Scope.next]
    have hOut : (Scope.unbindParams last.scope (Scope.bindParams st.scope b.params).1).next x =
        last.scope.next x := by
      rw [Scope.next, Scope.get?_unbindParams_bindParams, if_neg hParam, Scope.next]
    have hTail := hEnd.timeline x (by simp [blockParams])
    rw [hOut] at hTail
    rw [List.append_assoc]
    exact .spared trivial (.reached hIn.ge ((hLast.timeline x hInner).append hTail))

theorem steady_optionBlock (s : Span) {b : Option (Block Node)}
    (h : ∀ m, b.bind (·.body) = some m → (transform m).Steady) : (optionBlock s b).Steady := by
  cases b with
  | none => exact steady_pure _
  | some b => exact (steady_runBlock s h).bind fun _ => steady_pure _

theorem steady_unfolded {saves : Bool} {meaning : Symbol → Node}
    (h : ∀ t, (transform (meaning t)).Steady) : (unfolded saves meaning).Steady := by
  unfold unfolded
  split
  · exact (steady_allocate _ _).bind fun t => h t
  · exact h _

end Code

/-! ## Every tree -/

/-- No file is required, and no constant is assigned. -/
def Node.IsOwn : Node → Prop
  | .require .. | .assign _ (.atom _ (.const _)) _ => False
  | _ => True

theorem Node.IsGlue.isOwn {n : Node} (h : n.IsGlue) : n.IsOwn := by
  cases n with
  | assign s target value =>
    cases target with
    | atom s a => cases a <;> first | exact h.elim | trivial
    | _ => trivial
  | require => exact h.elim
  | _ => trivial

namespace Node

open Code

theorem steady_code {n : Node} (hOwn : n.IsOwn) (hParts : ∀ m ∈ n.parts, (transform m).Steady)
    (hMeans : ∀ m, n.Means m → (transform m).Steady) : n.code.Steady := by
  have hIfElse : ∀ {s : Span} {test : Node} {onTrue onFalse : Option Node},
      (∀ m, m = test ∨ onTrue = some m ∨ onFalse = some m → (transform m).Steady) →
      (ifElse s test onTrue onFalse).Steady := fun h =>
    steady_ifElse _ (h _ (.inl rfl)) (fun m hm => h m (.inr (.inl hm)))
      fun m hm => h m (.inr (.inr hm))
  cases n with
  | require => exact hOwn.elim
  | atom => exact steady_pure _
  | var s v => exact (steady_useVar s v).bind fun _ => steady_pure _
  | regex => exact (steady_allocate _ _).bind fun _ => steady_pure _
  | seq s stmts => exact (steady_statements hParts).bind fun _ => steady_pure _
  | cond s form test body other =>
    cases form with
    | whenTrue => exact hIfElse fun m hm => hParts m (by simpa using hm)
    | whenFalse =>
      refine hIfElse fun m hm => hParts m ?_
      simpa [or_comm] using hm
  | loop s test body =>
    exact steady_loop s (hParts test (by simp)) fun m hm => hParts m (by simp [hm])
  | choose s subject whens other => exact steady_unfolded fun t => hMeans _ (.choose t)
  | logic s op left right => exact steady_unfolded fun t => hMeans _ (.logic t)
  | jump s kind value =>
    exact (steady_optionNode fun m hm => hParts m (by simp [hm])).bind fun _ => steady_pure _
  | assign s target value =>
    have hTarget : (Code.target target).Steady := steady_target (hParts target (by simp))
    have hValue : (Code.node value).Steady := steady_node (hParts value (by simp))
    show (Code.assign s target value).Steady
    unfold Code.assign
    split
    · exact (steady_apart _ _).bind fun _ => hTarget.bind fun _ => steady_pure _
    · exact hValue.bind fun _ => hTarget.bind fun _ => steady_pure _
  | multi s lefts values =>
    have hValues : (nodes values).Steady := steady_nodes fun m hm => hParts m (by simp [hm])
    exact hValues.bind fun _ => (steady_targets fun m hm => hParts m (by simp [hm])).bind
      fun _ => steady_pure _
  | call s receiver name args block =>
    have hReceiver : (optionNode receiver).Steady :=
      steady_optionNode fun m hm => hParts m (by simp [hm])
    have hArgs : (nodes args).Steady := steady_nodes fun m hm => hParts m (by simp [hm])
    exact hReceiver.bind fun _ => hArgs.bind fun _ =>
      (steady_optionBlock s fun m hm => hParts m (by simp [hm])).bind fun _ => steady_pure _
  | isA s subject type =>
    exact (steady_node (hParts subject (by simp))).bind fun _ => steady_pure _
  | define s kind name params body =>
    show (Code.define s kind name params body).Steady
    unfold Code.define
    split
    · rename_i hDefault
      exact hMeans _ (.define hDefault)
    · exact (steady_optionApart _ _).bind fun _ => steady_pure _
  | interp s pieces => exact (steady_nodes hParts).bind fun _ => steady_pure _
  | range s first last exclusive =>
    exact (steady_node (hParts first (by simp))).bind fun _ =>
      (steady_node (hParts last (by simp))).bind fun _ => steady_pure _
  | array s elements type =>
    refine (steady_nodes hParts).bind fun _ => (steady_allocate _ _).bind fun _ => ?_
    split
    · exact steady_pure _
    · exact (steady_allocate _ _).bind fun _ => steady_pure _
  | hash s entries types =>
    refine (steady_entryNodes fun e he => ?_).bind fun _ => (steady_allocate _ _).bind fun _ => ?_
    · have hEntry : ∀ m, m = e.key ∨ m = e.value → (transform m).Steady := fun m hm =>
        hParts m (by simp only [parts, List.mem_flatMap]; exact ⟨e, he, by simpa using hm⟩)
      exact ⟨hEntry _ (.inl rfl), hEntry _ (.inr rfl)⟩
    · split
      · exact steady_pure _
      · exact (steady_allocate _ _).bind fun _ => steady_pure _

/-- Trees without requires move on. -/
theorem steady_transform {n : Node} (h : n.Everywhere true IsOwn) : (transform n).Steady := by
  induction hWeight : n.weight using Nat.strong_induction_on generalizing n with
  | _ w ih =>
    subst hWeight
    have hCode : n.code.Steady := by
      refine steady_code (h n .root) (fun m hm => ?_) fun m hm => ?_
      · exact ih _ (weight_lt_of_mem_parts hm) (((everywhere_iff n).mp h).2 (.inl rfl) m hm) rfl
      · exact ih _ hm.weight_lt (everywhere_of_means (fun _ hk => hk.isOwn) hm h) rfl
    exact fun file st moves o st' hRuns => hCode file st moves o st' hRuns.of_transform

end Node

end CoreTree
