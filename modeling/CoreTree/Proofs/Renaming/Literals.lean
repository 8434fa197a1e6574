import CoreTree.Proofs.Renaming.Constructs

/-! # Literals side by side

Interpolations and the literals of ranges, regexes, arrays and hashes wrap what their parts come to
in calls. The names called are the same in every table, and the temporaries, constants and types
among the calls correspond.
-/
namespace CoreTree
set_option autoImplicit false

/-! ## Calls around parts -/

/-- The names that every table starts with stay what they are. -/
def Renaming.FixesCommon (g : Renaming) : Prop :=
  ∀ x : Symbol, x.id < commonNames.length → g.name x = x

namespace Renaming.FixesCommon

variable {g : Renaming} (h : g.FixesCommon)
include h

theorem send (s : Span) (n : Node) (ns : List Node) {name : Symbol}
    (hName : name.id < commonNames.length) :
    (Node.send s n name ns).rename g = .send s (n.rename g) name (renameList g ns) := by
  rw [Node.send, Node.rename_call, h name hName, renameList_eq_map]
  rfl

theorem globalConst (s : Span) {name : Symbol} (hName : name.id < commonNames.length) :
    (Node.globalConst s name).rename g = .globalConst s name :=
  congrArg (fun x => Node.globalConst s x) (h name hName)

theorem interp (s : Span) (n : Node) (pieces : List Node) :
    (pieces.foldl (fun acc piece => .send s acc .append [piece]) n).rename g =
      (renameList g pieces).foldl (fun acc piece => .send s acc .append [piece]) (n.rename g) := by
  induction pieces generalizing n with
  | nil => rfl
  | cons piece pieces ih =>
    rw [List.foldl_cons, ih, h.send s n [piece] (by decide)]
    rfl

theorem arrayStatements (s : Span) (type : Node) (t : Symbol) (elements : List Node) :
    renameList g (Pending.arrayStatements s type t elements) =
      Pending.arrayStatements s (type.rename g) (g.name t) (renameList g elements) := by
  have hElement : ∀ (i : Nat) (e : Node),
      (Node.send e.span (.send e.span (.temp e.span t) .buffer []) .indexSet
        [.int e.span i, e]).rename g =
      .send (e.rename g).span (.send (e.rename g).span (.temp (e.rename g).span (g.name t))
        .buffer []) .indexSet [.int (e.rename g).span i, e.rename g] := by
    intro i e
    rw [h.send _ _ _ (by decide), h.send _ _ _ (by decide), Node.span_rename]
    rfl
  have hElements : (elements.mapIdx fun i e => Node.send e.span
      (.send e.span (.temp e.span t) .buffer []) .indexSet [.int e.span i, e]).map (·.rename g) =
      (elements.map (·.rename g)).mapIdx fun i e => Node.send e.span
        (.send e.span (.temp e.span (g.name t)) .buffer []) .indexSet [.int e.span i, e] := by
    refine List.ext_getElem? fun i => ?_
    simp only [List.getElem?_map, List.getElem?_mapIdx, Option.map_map]
    exact congrArg (Option.map · _) (funext fun e => hElement i e)
  unfold Pending.arrayStatements
  simp only [renameList_eq_map, List.map_append, List.map_cons, List.map_nil, List.length_map,
    hElements, Node.rename_assign,
    h.send _ _ _ (show Symbol.newName.id < commonNames.length by decide),
    h.send _ _ _ (show Symbol.setLength.id < commonNames.length by decide)]
  rfl

theorem hashStatements (s : Span) (empty : Node) (t : Symbol) (entries : List (HashEntry Node)) :
    renameList g (Pending.hashStatements s empty t entries) =
      Pending.hashStatements s (empty.rename g) (g.name t) (renameEntries g entries) := by
  have hEntry : ∀ e : HashEntry Node,
      (Node.send (e.key.span.merge e.value.span) (.temp (e.key.span.merge e.value.span) t) .indexSet
        [e.key, e.value]).rename g =
      .send ((e.key.rename g).span.merge (e.value.rename g).span)
        (.temp ((e.key.rename g).span.merge (e.value.rename g).span) (g.name t)) .indexSet
        [e.key.rename g, e.value.rename g] := by
    intro e
    rw [h.send _ _ _ (by decide), Node.span_rename, Node.span_rename]
    rfl
  have hEntries : (entries.map fun e => Node.send (e.key.span.merge e.value.span)
      (.temp (e.key.span.merge e.value.span) t) .indexSet [e.key, e.value]).map (·.rename g) =
      (entries.map (HashEntry.map (·.rename g))).map fun e =>
        Node.send (e.key.span.merge e.value.span)
          (.temp (e.key.span.merge e.value.span) (g.name t)) .indexSet [e.key, e.value] := by
    rw [List.map_map, List.map_map]
    exact List.map_congr_left fun e _ => hEntry e
  unfold Pending.hashStatements
  simp only [renameList_eq_map, renameEntries_eq_map, List.map_append, hEntries]
  rfl

end Renaming.FixesCommon

/-! ## Literals -/

namespace Pairing

variable {P : Pairing} {p p' q q' : Program} {g : Renaming} {m m' left left' : Pending}
  {ms ms' : List Pending}

theorem Fits.fixesCommon (hg : P.Fits p p' g) : g.FixesCommon := fun _ hx => hg.common hx

theorem twin_interp (s : Span) (h : P.TwinLists p p' ms ms') :
    P.Twin p p' (.interp s ms) (.interp s ms') where
  head := .closed rfl trivial trivial
  run := (agrees_nodes h).bind fun _ _ _ _ _ hns => agrees_pure fun _ _ hr =>
    Same.outcome (fun g hg => by
      have hCommon := hg.fixesCommon
      rw [hns.later hr g hg, hCommon.send s _ _ (by decide), hCommon.interp,
        hCommon.send s _ _ (by decide), hCommon.globalConst s (by decide)]
      rfl) false

theorem twin_range (s : Span) (exclusive : Bool) (h : P.Twin p p' m m')
    (h' : P.Twin p p' left left') :
    P.Twin p p' (.range s m left exclusive) (.range s m' left' exclusive) where
  head := .closed rfl trivial trivial
  run := by
    refine h.node.bind fun n n' q q' hq hn => ?_
    refine (h'.later hq).node.bind fun k k' r r' hr hk => agrees_pure fun u u' hu => ?_
    refine Same.outcome (fun g hg => ?_) false
    have hCommon := hg.fixesCommon
    rw [hn.later (hr.trans hu) g hg, hk.later hu g hg, hCommon.send s _ _ (by decide),
      hCommon.globalConst s (by decide)]
    rfl

theorem twin_regex (s : Span) {text : Symbol} (hText : text ∈ P.texts) :
    P.Twin p p' (.regex s text) (.regex s (P.rename text)) where
  head := .closed rfl trivial trivial
  run := (agrees_regexConstant hText s).bind fun _ _ _ _ _ hx => agrees_pure fun _ _ hr =>
    Same.outcome (fun g hg => congrArg (fun x => Node.globalConst s x) (hx.later hr g hg)) false

theorem twin_array (s : Span) {type type' : Option ConstPath} (h : P.TwinLists p p' ms ms')
    (hType : P.Same (fun g => Option.map (·.rename g)) p p' type type') :
    P.Twin p p' (.array s ms type) (.array s ms' type') where
  head := .closed rfl trivial trivial
  run := by
    refine (agrees_nodes h).bind fun ns ns' q q' hq hns => ?_
    have hArgs : P.Same (fun g => List.map (·.rename g)) q q'
        [type.elim (TypeArg.merged ns) .named] [type'.elim (.merged ns') .named] := by
      intro g hg
      rw [hns g hg, hType.later hq g hg, renameList_eq_map]
      cases type <;> rfl
    have hDeclared := Always.elim (P := P) (fun g hg => show type'.isSome = type.isSome by
      rw [hType.later hq g hg, Option.isSome_map]) hq.level
    have hEmpty : ns'.isEmpty = ns.isEmpty := Always.elim (P := P) (fun g hg => by
      rw [hns g hg, renameList_eq_map, List.isEmpty_map]) hq.level
    refine (agrees_genericType (by decide) hArgs).bind fun k k' r r' hr hk => ?_
    have hGeneric : P.Same Node.rename r r' (.atom s (.generic k)) (.atom s (.generic k')) :=
      fun g hg => congrArg (fun k => Node.atom s (.generic k)) (hk g hg)
    dsimp only
    rw [hDeclared, hEmpty]
    split
    · refine agrees_pure fun u u' hu => Same.outcome (fun g hg => ?_) false
      rw [hGeneric.later hu g hg, hg.fixesCommon.send s _ _ (by decide)]
      rfl
    · refine agrees_freshTemp.bind fun t t' u u' hu ht => agrees_pure fun v v' hv => ?_
      refine Same.outcome (Same.seq (fun g hg => ?_) s) false
      rw [hGeneric.later (hu.trans hv) g hg, ht.later hv g hg,
        hns.later (hr.trans (hu.trans hv)) g hg, hg.fixesCommon.arrayStatements]

structure TwinEntry (P : Pairing) (p p' : Program) (e e' : HashEntry Pending) : Prop where
  key : P.Twin p p' e.key e'.key
  value : P.Twin p p' e.value e'.value

abbrev TwinEntries (P : Pairing) (p p' : Program) :
    List (HashEntry Pending) → List (HashEntry Pending) → Prop := List.Forall₂ (P.TwinEntry p p')

theorem TwinEntries.later {es es' : List (HashEntry Pending)} (h : P.TwinEntries p p' es es')
    (hReaches : P.Reaches p p' q q') : P.TwinEntries q q' es es' :=
  h.imp fun _ _ hEntry => ⟨hEntry.key.later hReaches, hEntry.value.later hReaches⟩

theorem agrees_entryNodes {es es' : List (HashEntry Pending)} (h : P.TwinEntries p p' es es') :
    P.Agrees p p' (Pending.entryNodes es) (Pending.entryNodes es') (P.Same renameEntries) := by
  induction es generalizing es' p p' with
  | nil =>
    cases h
    exact agrees_pure fun _ _ _ _ _ => rfl
  | cons e es ih =>
    cases h with
    | cons h hRest =>
      refine h.key.node.bind fun key key' q q' hq hKey => ?_
      refine (h.value.later hq).node.bind fun value value' r r' hr hValue => ?_
      refine (ih (TwinEntries.later hRest (hq.trans hr))).bind fun es₁ es₁' u u' hu hEntries =>
        agrees_pure fun v v' hv g hg => ?_
      rw [renameEntries, hKey.later (hr.trans (hu.trans hv)) g hg, hValue.later (hu.trans hv) g hg,
        hEntries.later hv g hg]

theorem twin_hash (s : Span) {es es' : List (HashEntry Pending)} {types types' : Option HashTypes}
    (h : P.TwinEntries p p' es es')
    (hTypes : P.Same (fun g => Option.map (·.rename g)) p p' types types') :
    P.Twin p p' (.hash s es types) (.hash s es' types') where
  head := .closed rfl trivial trivial
  run := by
    refine (agrees_entryNodes h).bind fun ns ns' q q' hq hns => ?_
    have hArgs : P.Same (fun g => List.map (·.rename g)) q q'
        (types.elim [.merged (ns.map (·.key)), .merged (ns.map (·.value))]
          fun t => [TypeArg.named t.key, .named t.value])
        (types'.elim [.merged (ns'.map (·.key)), .merged (ns'.map (·.value))]
          fun t => [.named t.key, .named t.value]) := by
      intro g hg
      rw [hns g hg, hTypes.later hq g hg, renameEntries_eq_map]
      cases types with
      | none => simp [TypeArg.rename, HashEntry.map]
      | some => rfl
    have hEmpty : ns'.isEmpty = ns.isEmpty := Always.elim (P := P) (fun g hg => by
      rw [hns g hg, renameEntries_eq_map, List.isEmpty_map]) hq.level
    refine (agrees_genericType (by decide) hArgs).bind fun k k' r r' hr hk => ?_
    have hNew : P.Same Node.rename r r' (.send s (.atom s (.generic k)) .newName [])
        (.send s (.atom s (.generic k')) .newName []) := fun g hg => by
      rw [hk g hg, hg.fixesCommon.send s _ _ (by decide)]
      rfl
    dsimp only
    rw [hEmpty]
    split
    · exact agrees_pure fun u u' hu => (hNew.later hu).outcome false
    · refine agrees_freshTemp.bind fun t t' u u' hu ht => agrees_pure fun v v' hv => ?_
      refine Same.outcome (Same.seq (fun g hg => ?_) s) false
      rw [hNew.later (hu.trans hv) g hg, ht.later hv g hg,
        hns.later (hr.trans (hu.trans hv)) g hg, hg.fixesCommon.hashStatements]

end Pairing

end CoreTree
