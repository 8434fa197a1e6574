import CoreTree.Proofs.Assignment.Single
import CoreTree.Proofs.Defaults.Frames
import Mathlib.Data.Option.Basic

/-! # Default values

A definition with default values becomes one definition for each number of arguments. Each but the
last calls the next one, with its own parameters and one default value, so a call with too few
arguments goes along a chain of calls. What is said of a link carries over to the chain by induction
on the parameters that are left.
-/
namespace CoreTree
set_option autoImplicit false

open Eval

variable {file : Option SourcePath} {s : Span} {kind : DefKind} {name : Symbol}

/-! ## What is defined -/

/-- Normalized in a scope that knows the parameters and nothing else, the tree becomes this. -/
def Node.BecomesIn (file : Option SourcePath) (params : List Symbol) (source result : Node) :
    Prop :=
  ∃ p moves o st, CoreTree.Runs file (.transform source) ⟨p, .ofParams params⟩ moves (.ok o st) ∧
    o.node = result

/-- Parameters and the same parameters with their default values normalized. Each value was
normalized with just the parameters before it in scope. -/
inductive Supplied (file : Option SourcePath) :
    List Symbol → List (Param Node) → List (Param Node) → Prop where
  | nil (given : List Symbol) : Supplied file given [] []
  | cons {given : List Symbol} {name : Symbol} {source value : Option Node}
    {params supplied : List (Param Node)} (h : Option.Rel (Node.BecomesIn file given) source value)
    (hRest : Supplied file (given ++ [name]) params supplied) :
    Supplied file given (⟨name, source⟩ :: params) (⟨name, value⟩ :: supplied)

theorem Supplied.names {given : List Symbol} {params supplied : List (Param Node)}
    (h : Supplied file given params supplied) : supplied.map (·.name) = params.map (·.name) := by
  induction h with
  | nil => rfl
  | cons _ _ ih => rw [List.map_cons, List.map_cons, ih]

namespace Runs

variable {st st' : NormalState} {moves : List Move} {given : List Symbol}

theorem of_readParam {x : Symbol} (hx : x ∈ given) {p : Program} {n : Node}
    (h : Runs file (Code.node (.var s ⟨x, 0, false⟩)) ⟨p, .ofParams given⟩ moves (.ok n st')) :
    n = .var s ⟨x, 0, false⟩ ∧ st' = ⟨p, .ofParams given⟩ := by
  obtain ⟨o, _, _, _, hRuns, hPure, rfl⟩ := h.of_bind
  obtain ⟨-, rfl, rfl⟩ := hPure.of_pure
  obtain ⟨v, _, _, _, hUse, hPure, rfl⟩ := hRuns.of_transform.of_bind
  obtain ⟨-, rfl, rfl⟩ := hPure.of_pure
  obtain ⟨-, hRead⟩ := of_act (a := .read s ⟨x, 0, false⟩) hUse
  have hVersion : (Scope.ofParams given).readVersion? x = some 0 := by
    rw [Scope.readVersion?, Scope.get?_ofParams, if_pos hx]
    rfl
  rw [Act.run_read, hVersion] at hRead
  cases hRead
  exact ⟨rfl, rfl⟩

theorem of_arguments {params : List Symbol} (hParams : ∀ x ∈ params, x ∈ given) {p : Program}
    {last : Node} {ns : List Node} (h : Runs file (Code.nodes
      (params.map (fun x => .var s ⟨x, 0, false⟩) ++ [last])) ⟨p, .ofParams given⟩ moves
      (.ok ns st')) :
    ∃ value, ns = params.map (fun x => .var s ⟨x, 0, false⟩) ++ [value] ∧
      last.BecomesIn file given value := by
  induction params generalizing ns moves st' with
  | nil =>
    obtain ⟨value, _, _, _, hLast, hRest, rfl⟩ := h.of_bind
    obtain ⟨_, _, _, _, hNil, hPure, rfl⟩ := hRest.of_bind
    obtain ⟨-, rfl, rfl⟩ := hNil.of_pure
    obtain ⟨-, rfl, rfl⟩ := hPure.of_pure
    obtain ⟨o, _, _, _, hRuns, hPure, rfl⟩ := hLast.of_bind
    obtain ⟨-, rfl, rfl⟩ := hPure.of_pure
    exact ⟨_, rfl, p, _, o, _, hRuns, rfl⟩
  | cons x xs ih =>
    obtain ⟨hFirst, hOthers⟩ := List.forall_mem_cons.mp hParams
    obtain ⟨n, _, _, _, hRead, hRest, rfl⟩ := h.of_bind
    obtain ⟨rfl, rfl⟩ := of_readParam hFirst hRead
    obtain ⟨ms, _, _, _, hArgs, hPure, rfl⟩ := hRest.of_bind
    obtain ⟨-, rfl, rfl⟩ := hPure.of_pure
    obtain ⟨value, rfl, hValue⟩ := ih hOthers hArgs
    exact ⟨value, rfl, hValue⟩

theorem of_plainDefine {params : List Symbol} {body : Option Node} {o : Outcome}
    (h : Runs file (.transform (.define s kind name (Node.plainParams params) body)) st moves
      (.ok o st')) :
    ∃ body', Option.Rel (Node.BecomesIn file params) body body' ∧
      o = ⟨.define s kind name (Node.plainParams params) (body'.bind Node.toOption), false⟩ := by
  have hRuns : Runs file (Code.define s kind name (Node.plainParams params) body) st moves
    (.ok o st') := h.of_transform
  have hNames : (Node.plainParams params).map (·.name) = params := by
    simp [Node.plainParams, Function.comp_def]
  rw [Code.define, Node.any_plainParams, if_neg Bool.false_ne_true, hNames] at hRuns
  obtain ⟨body', _, _, _, hApart, hPure, rfl⟩ := hRuns.of_bind
  obtain ⟨-, rfl, rfl⟩ := hPure.of_pure
  refine ⟨body', ?_, rfl⟩
  cases body with
  | none =>
    obtain ⟨-, rfl, rfl⟩ := hApart.of_pure
    exact .none
  | some n =>
    obtain ⟨m, _, _, _, hApart, hPure, rfl⟩ := hApart.of_bind
    obtain ⟨-, rfl, rfl⟩ := hPure.of_pure
    obtain ⟨_, o, _, hBody, -, rfl, -⟩ := hApart.of_apart
    exact .some ⟨_, _, o, _, hBody, rfl⟩

/-- A definition that passes its parameters on still does when it is normalized. -/
theorem of_forwarder {next : Option Node} {o : Outcome}
    (h : Runs file (.transform (.define s kind name (Node.plainParams given)
      (some (.call s none name (given.map (fun x => .var s ⟨x, 0, false⟩) ++
        [next.getD (.nil s)]) none)))) st moves (.ok o st')) :
    ∃ value, Option.Rel (Node.BecomesIn file given) next value ∧
      o = ⟨.define s kind name (Node.plainParams given)
        (some (.call s none name (given.map (fun x => .var s ⟨x, 0, false⟩) ++
          [value.getD (.nil s)]) none)), false⟩ := by
  obtain ⟨body', hBody, rfl⟩ := h.of_plainDefine
  obtain ⟨p, _, o, _, hCall, rfl⟩ := hBody
  obtain ⟨_, _, _, _, hReceiver, hBehind, rfl⟩ := hCall.of_transform.of_bind
  obtain ⟨-, rfl, rfl⟩ := hReceiver.of_pure
  obtain ⟨args, _, _, _, hArgs, hLast, rfl⟩ := hBehind.of_bind
  obtain ⟨_, _, _, _, hBlock, hPure, rfl⟩ := hLast.of_bind
  obtain ⟨-, rfl, rfl⟩ := hBlock.of_pure
  obtain ⟨-, rfl, rfl⟩ := hPure.of_pure
  obtain ⟨value, rfl, hValue⟩ := of_arguments (fun _ => id) hArgs
  cases next with
  | none =>
    obtain ⟨_, _, _, _, hNil, rfl⟩ := hValue
    obtain ⟨-, rfl, -⟩ := hNil.of_transform.of_pure
    exact ⟨none, .none, rfl⟩
  | some n => exact ⟨some value, .some hValue, rfl⟩

theorem of_forwarders {params : List (Param Node)} {names : List Symbol} {body : Option Node}
    {r : List Node × Bool} (h : Runs file (Code.statements
      (Node.forwarders s kind name given params ++
        [.define s kind name (Node.plainParams names) body])) st moves (.ok r st')) :
    ∃ supplied body', Supplied file given params supplied ∧
      Option.Rel (Node.BecomesIn file names) body body' ∧
      r = (Node.forwarders s kind name given supplied ++
        [.define s kind name (Node.plainParams names) (body'.bind Node.toOption)], false) := by
  induction params generalizing given st moves r with
  | nil =>
    obtain ⟨o, _, _, _, hDefine, hRest, rfl⟩ := h.of_bind
    obtain ⟨body', hBody, rfl⟩ := hDefine.of_plainDefine
    obtain ⟨_, _, _, _, hNil, hPure, rfl⟩ := hRest.of_bind
    obtain ⟨-, rfl, rfl⟩ := hNil.of_pure
    obtain ⟨-, rfl, rfl⟩ := hPure.of_pure
    exact ⟨[], body', .nil given, hBody, rfl⟩
  | cons next params ih =>
    obtain ⟨o, _, _, _, hDefine, hRest, rfl⟩ := h.of_bind
    obtain ⟨value, hValue, rfl⟩ := hDefine.of_forwarder
    obtain ⟨r, _, _, _, hStatements, hPure, rfl⟩ := hRest.of_bind
    obtain ⟨-, rfl, rfl⟩ := hPure.of_pure
    obtain ⟨supplied, body', hSupplied, hBody, rfl⟩ := ih hStatements
    exact ⟨⟨next.name, value⟩ :: supplied, body', .cons hValue hSupplied, hBody, rfl⟩

end Runs

/-! ## The definitions in order -/

namespace Node

variable (s : Span) (kind : DefKind) (name : Symbol)

theorem ofStatements_eq_seq {stmts : List Node} (h : 1 < stmts.length) :
    ofStatements s stmts = .seq s stmts := by
  obtain _ | ⟨first, _ | ⟨second, rest⟩⟩ := stmts
  · cases h
  · exact absurd h (lt_irrefl 1)
  · rfl

theorem length_forwarders (given : List Symbol) (params : List (Param Node)) :
    (forwarders s kind name given params).length = params.length := by
  induction params generalizing given with
  | nil => rfl
  | cons next params ih => exact congrArg (· + 1) (ih _)

theorem drop_forwarders (given : List Symbol) (params : List (Param Node)) (i : Nat) :
    (forwarders s kind name given params).drop i =
      forwarders s kind name (given ++ (params.take i).map (·.name)) (params.drop i) := by
  induction i generalizing given params with
  | zero => simp
  | succ i ih =>
    cases params with
    | nil => rfl
    | cons next params =>
      rw [forwarders, List.drop_succ_cons, ih, List.take_succ_cons, List.drop_succ_cons,
        List.map_cons, List.append_assoc, List.singleton_append]

/-- The definitions of a family come by the number of their parameters. -/
theorem exists_getElem?_forwarders (given : List Symbol) (params : List (Param Node))
    (whole : Option Node) {i : Nat} (hi : i ≤ params.length) :
    ∃ body, (forwarders s kind name given params ++ [.define s kind name
        (plainParams (given ++ params.map (·.name))) whole])[i]? =
      some (.define s kind name (plainParams (given ++ (params.take i).map (·.name))) body) := by
  obtain hLt | rfl := hi.lt_or_eq
  · have hDrop := drop_forwarders s kind name given params i
    rw [List.drop_eq_getElem_cons hLt, forwarders] at hDrop
    have hHead := congrArg List.head? hDrop
    rw [List.head?_drop, List.head?_cons] at hHead
    rw [List.getElem?_append_left (by rwa [length_forwarders])]
    exact ⟨_, hHead⟩
  · rw [List.getElem?_append_right (length_forwarders ..).le, length_forwarders, Nat.sub_self,
      List.take_length]
    exact ⟨whole, rfl⟩

end Node

/-! ## Calls -/

namespace Eval

variable {V : Type} (I : Interp V)

/-- The keys of a definition's parameters. -/
def cells (params : List Symbol) : List (Symbol × Nat) := params.map (·, 0)

/-- The values of all parameters, when those of the first ones are given: each of the others is
evaluated once, in turn, in a frame with just the ones before it. -/
def supply (run : Node → Eval (Symbol × Nat) V V) :
    List Symbol → List V → List (Param Node) → Eval (Symbol × Nat) V (List V)
  | _, args, [] => pure args
  | given, args, next :: params => do
    let value ← frame I (cells given) args (branch I (next.default.map run))
    supply run (given ++ [next.name]) (args ++ [value]) params

theorem isolated_supply (run : Node → Eval (Symbol × Nat) V V) (given : List Symbol)
    (args : List V) (params : List (Param Node)) : (supply I run given args params).Isolated := by
  induction params generalizing given args with
  | nil => exact isolated_pure args
  | cons next params ih => exact (isolated_frame _ _ _).bind fun _ => ih _ _

end Eval

/-- What trees and calls do, where these definitions are in force: variables are read, a call by
name evaluates its arguments in order, and if one of the definitions takes as many, its body runs
in a frame. Whatever else there is may do anything. -/
structure Dispatch {V : Type} (I : Interp V) (defs : List Node) where
  run : Node → Eval (Symbol × Nat) V V
  invoke : Symbol → List V → Eval (Symbol × Nat) V V
  run_nil : ∀ s, run (.nil s) = pure I.nil
  run_var : ∀ s v, v.out = false → run (.var s v) = .readLocal v.cell
  run_call : ∀ s name args, run (.call s none name args none) = .all (args.map run) >>= invoke name
  invoke_define : ∀ s kind name params body, .define s kind name params body ∈ defs →
    ∀ args, args.length = params.length → invoke name args =
      .called I (cells (params.map (·.name))) (.branch I (body.map run)) args

namespace Dispatch

variable {V : Type} {I : Interp V} {defs : List Node}

/-- A call of one of the definitions goes on along the chain. -/
theorem invoke_eq (R : Dispatch I defs) {names given : List Symbol} {supplied : List (Param Node)}
    {whole : Option Node} (hWhole : .define s kind name (Node.plainParams names) whole ∈ defs)
    (hDefs : ∀ d ∈ Node.forwarders s kind name given supplied, d ∈ defs)
    (hNames : given ++ supplied.map (·.name) = names) (hDistinct : names.Nodup) {args : List V}
    (hLength : args.length = given.length) :
    R.invoke name args = catchReturn (supply I R.run given args supplied >>= fun values =>
      frame I (cells names) values (branch I (whole.map R.run))) := by
  have hPlain : ∀ params, (Node.plainParams params).map (·.name) = params := fun params => by
    simp [Node.plainParams, Function.comp_def]
  have hCount : ∀ params, (Node.plainParams params).length = params.length := fun params =>
    List.length_map _
  induction supplied generalizing given args with
  | nil =>
    rw [List.map_nil, List.append_nil] at hNames
    subst hNames
    rw [R.invoke_define _ _ _ _ _ hWhole args (by rw [hCount, hLength]), hPlain]
    rfl
  | cons next supplied ih =>
    obtain ⟨hFirst, hRest⟩ := List.forall_mem_cons.mp hDefs
    have hGiven : (cells given).Nodup := by
      refine List.Nodup.map (fun x y h => congrArg Prod.fst h) ?_
      exact (List.nodup_append.mp (hNames ▸ hDistinct)).1
    have hLengthCells : args.length = (cells given).length := by
      rw [cells, List.length_map, hLength]
    have hNext : ∀ value, R.invoke name (args ++ [value]) = catchReturn
        (supply I R.run (given ++ [next.name]) (args ++ [value]) supplied >>= fun values =>
          frame I (cells names) values (branch I (whole.map R.run))) := fun value =>
      ih hRest (by rw [← hNames]; simp) (by simp [hLength])
    have hIsolated : ∀ value, (catchReturn
        (supply I R.run (given ++ [next.name]) (args ++ [value]) supplied >>= fun values =>
          frame I (cells names) values (branch I (whole.map R.run)))).Isolated := fun value =>
      ((isolated_supply I R.run _ _ _).bind fun _ => isolated_frame _ _ _).catchReturn
    have hDefault : R.run (next.default.getD (.nil s)) = branch I (next.default.map R.run) := by
      cases next.default with
      | none => exact R.run_nil s
      | some n => rfl
    have hReads : (given.map fun x => Node.var s ⟨x, 0, false⟩).map R.run =
        (cells given).map readLocal := by
      rw [cells, List.map_map, List.map_map]
      exact List.map_congr_left fun x _ => R.run_var s _ rfl
    rw [R.invoke_define _ _ _ _ _ hFirst args (by rw [hCount, hLength]), hPlain, called,
      Option.map_some, branch, Option.getD_some, R.run_call, List.map_append, List.map_singleton,
      hReads, hDefault, all_concat, bind_assoc, frame_reads hGiven hLengthCells]
    rw [bind_assoc]
    simp only [pure_bind, hNext]
    rw [frame_bind hIsolated, catchReturn_bind, supply, bind_assoc]

end Dispatch

/-! ## The whole family -/

/-- A definition is expanded at its first default value. -/
theorem expandedDefine_eq {params : List (Param Node)} {k : Nat} {first : Param Node}
    (body : Option Node) (hBefore : ∀ p ∈ params.take k, p.default = none)
    (hAt : params[k]? = some first) (hSome : first.default.isSome = true) :
    Node.expandedDefine s kind name params body = .seq s
      (Node.forwarders s kind name ((params.map (·.name)).take k) (params.drop k) ++
        [.define s kind name (Node.plainParams (params.map (·.name))) body]) := by
  have hTake : ∀ p ∈ params.take k, p.default.isNone = true := fun p hp => by rw [hBefore p hp]; rfl
  have hStop : first.default.isNone = false := by
    rw [Option.isNone_eq_false_iff]
    exact hSome
  have hDrop : params.drop k = first :: params.drop (k + 1) := by
    obtain ⟨hIndex, rfl⟩ := List.getElem?_eq_some_iff.mp hAt
    exact List.drop_eq_getElem_cons hIndex
  have hTakeWhile : (params.take k ++ params.drop k).takeWhile (·.default.isNone) =
      params.take k := by
    rw [List.takeWhile_append_of_pos hTake, hDrop]
    simp [hStop]
  have hDropWhile : (params.take k ++ params.drop k).dropWhile (·.default.isNone) =
      params.drop k := by
    rw [List.dropWhile_append_of_pos hTake, hDrop]
    simp [hStop]
  rw [List.take_append_drop] at hTakeWhile hDropWhile
  rw [Node.expandedDefine, hTakeWhile, hDropWhile, List.map_take]

/-- Let a definition with distinct parameters, the first default value at index `k`, be normalized.
It becomes a sequence of definitions of the same kind and name, one for each number of parameters
from `k` up to all of them, in this order and without default values. However trees and calls behave
otherwise, a call with as many arguments evaluates the default values of the other parameters, each
once and in order, in a frame with just the parameters before it, and then runs the body once, in a
frame with all of them; a parameter without a default value is `nil`. Where a default value exits,
the call exits. -/
theorem default_parameters_expand {params : List (Param Node)} {body : Option Node} {k : Nat}
    (hBefore : ∀ p ∈ params.take k, p.default = none)
    (hFirst : ∃ p, params[k]? = some p ∧ p.default.isSome)
    (hDistinct : (params.map (·.name)).Nodup) {st st' : NormalState} {moves : List Move}
    {o : Outcome}
    (h : Runs file (.transform (.define s kind name params body)) st moves (.ok o st')) :
    ∃ defs supplied whole, o.node = .seq s defs ∧ defs.length = params.length - k + 1 ∧
      (∀ i < defs.length, ∃ body', defs[i]? = some
        (.define s kind name (Node.plainParams ((params.map (·.name)).take (k + i))) body')) ∧
      Supplied file ((params.map (·.name)).take k) (params.drop k) supplied ∧
      Option.Rel (Node.BecomesIn file (params.map (·.name))) body whole ∧
      ∀ (V : Type) (I : Interp V) (R : Dispatch I defs) (args : List V), k ≤ args.length →
        args.length ≤ params.length → R.invoke name args = catchReturn (do
          let values ← supply I R.run ((params.map (·.name)).take args.length) args
            (supplied.drop (args.length - k))
          frame I (cells (params.map (·.name))) values
            (branch I ((whole.bind Node.toOption).map R.run))) := by
  obtain ⟨first, hAt, hSome⟩ := hFirst
  have hIndex : k < params.length := (List.getElem?_eq_some_iff.mp hAt).1
  have hAny : params.any (·.default.isSome) = true :=
    List.any_eq_true.mpr ⟨first, List.mem_of_getElem? hAt, hSome⟩
  have hDefine : Runs file (Code.define s kind name params body) st moves (.ok o st') :=
    h.of_transform
  rw [Code.define, if_pos hAny, expandedDefine_eq body hBefore hAt hSome] at hDefine
  obtain ⟨r, _, _, _, hStatements, hPure, rfl⟩ := hDefine.of_transform.of_bind
  obtain ⟨-, rfl, rfl⟩ := hPure.of_pure
  obtain ⟨supplied, whole, hSupplied, hWhole, rfl⟩ := hStatements.of_forwarders
  generalize hNames : params.map (·.name) = names at *
  have hCount : supplied.length = params.length - k := by
    rw [← List.length_map (·.name), hSupplied.names, List.length_map, List.length_drop]
  have hRest : supplied.map (·.name) = names.drop k := by
    rw [hSupplied.names, List.map_drop, hNames]
  have hPrefix : ∀ i, names.take k ++ (supplied.take i).map (·.name) = names.take (k + i) := by
    intro i
    rw [List.map_take, hRest, List.take_add]
  have hAll : names.take k ++ supplied.map (·.name) = names := by
    rw [hRest, List.take_append_drop]
  have hLength : (Node.forwarders s kind name (names.take k) supplied ++ [Node.define s kind name
      (Node.plainParams names) (whole.bind Node.toOption)]).length = params.length - k + 1 := by
    rw [List.length_append, Node.length_forwarders, hCount, List.length_singleton]
  refine ⟨Node.forwarders s kind name (names.take k) supplied ++ [Node.define s kind name
    (Node.plainParams names) (whole.bind Node.toOption)], supplied, whole, ?_, hLength,
    fun i hi => ?_, hSupplied, hWhole, fun V I R args hFew hMany => ?_⟩
  · exact Node.ofStatements_eq_seq s (by rw [hLength]; omega)
  · have hLe : i ≤ supplied.length := by omega
    obtain ⟨body', hBody⟩ := Node.exists_getElem?_forwarders s kind name (names.take k) supplied
      (whole.bind Node.toOption) hLe
    rw [hAll, hPrefix] at hBody
    exact ⟨body', hBody⟩
  · -- a call with more arguments starts later in the chain
    obtain ⟨i, hi⟩ := Nat.exists_eq_add_of_le hFew
    rw [hi, Nat.add_sub_cancel_left]
    refine R.invoke_eq (List.mem_append_right _ (List.mem_singleton_self _)) (fun d hd => ?_) ?_
      hDistinct ?_
    · rw [← hPrefix, ← Node.drop_forwarders] at hd
      exact List.mem_append_left _ (List.mem_of_mem_drop hd)
    · rw [List.map_drop, hRest, List.drop_drop, List.take_append_drop]
    · rw [List.length_take, ← hNames, List.length_map]
      omega

namespace Sample

def defaultedParams : List (Param Node) := [⟨flag, none⟩, ⟨item, some (readVar flag)⟩]

/-- `def total(flag, item = flag) item end` -/
def defaulted : Node := .define .nowhere .method total defaultedParams (some (readVar item))

/-- `def total(flag) total(flag, flag) end ; def total(flag, item) item end` -/
def family : List Node := [
  .define .nowhere .method total (Node.plainParams [flag])
    (some (.call .nowhere none total [readVar flag, readVar flag] none)),
  .define .nowhere .method total (Node.plainParams [flag, item]) (some (readVar item))]

theorem runs_defaulted : ∃ moves o st', Runs none (.transform defaulted) ⟨program, .empty⟩ moves
    (.ok o st') ∧ o.node = .seq .nowhere family := by
  apply Exists.intro
  apply Exists.intro
  apply Exists.intro
  apply And.intro
  focus
    repeat first
      | apply Runs.pure
      | apply Runs.act
      | apply Runs.bind
      | apply Runs.apart
      | apply Runs.transform
  rfl

/-- The calls of the family, and of nothing else. -/
def invoked (x : Symbol) (args : List Atom) : Eval (Symbol × Nat) Atom Atom :=
  let whole := called interp (cells [flag, item]) (readLocal (item, 0))
  if x ≠ total then .stuck
  else if args.length = 1 then
    called interp (cells [flag]) (all [readLocal (flag, 0), readLocal (flag, 0)] >>= whole) args
  else whole args

/-- Literals, reads and calls. -/
def running : Node → Eval (Symbol × Nat) Atom Atom
  | .atom _ a => .atom interp a
  | .var _ v => .readLocal v.cell
  | .call _ none x args none => all (args.attach.map fun n => running n.1) >>= invoked x
  | _ => .stuck
termination_by n => sizeOf n
decreasing_by
  have hSize := List.sizeOf_lt_of_mem n.2
  simp only [Node.call.sizeOf_spec]
  omega

theorem running_readVar (x : Symbol) : running (readVar x) = readLocal (x, 0) := by
  rw [readVar, running]
  rfl

def dispatch : Dispatch interp family where
  run := running
  invoke := invoked
  run_nil s := by rw [Node.nil, running]; rfl
  run_var s v _ := by rw [running]
  run_call s x args := by rw [running, List.attach_map_val]
  invoke_define := by
    intro s kind x params body hMem args hLength
    obtain hMem | hMem : _ ∨ _ := by simpa [family] using hMem
    · obtain ⟨-, -, rfl, rfl, rfl⟩ := hMem
      have hArgs : args.length = 1 := hLength
      rw [Option.map_some, running, List.attach_map_val, List.map_cons, List.map_singleton,
        running_readVar]
      simp only [invoked, hArgs, ne_eq, not_true, if_false, if_true]
      rfl
    · obtain ⟨-, -, rfl, rfl, rfl⟩ := hMem
      have hArgs : args.length = 2 := hLength
      rw [Option.map_some, running_readVar]
      simp only [invoked, hArgs, ne_eq, not_true, if_false]
      rfl

theorem eq_readVar {x : Symbol} {given : List Symbol} (hx : x ∈ given) {n : Node}
    (h : (readVar x).BecomesIn none given n) : n = readVar x := by
  obtain ⟨p, _, o, _, hRuns, rfl⟩ := h
  have hNode : Runs none (Code.node (readVar x)) ⟨p, .ofParams given⟩ _ _ := .bind hRuns (.pure _ _)
  exact (Runs.of_readParam hx hNode).1

theorem defaulted_expands : ∃ moves o st', Runs none (.transform defaulted) ⟨program, .empty⟩ moves
    (.ok o st') ∧ o.node = .seq .nowhere family ∧
    ((dispatch.invoke total [.int 5]).on (start Prod.fst)).1 = .ok (.int 5) := by
  obtain ⟨moves, o, st', hRuns, hNode⟩ := runs_defaulted
  have hBefore : ∀ p ∈ defaultedParams.take 1, p.default = none := by simp [defaultedParams]
  have hFirst : ∃ p, defaultedParams[1]? = some p ∧ p.default.isSome := ⟨_, rfl, rfl⟩
  have hDistinct : (defaultedParams.map (·.name)).Nodup := by decide
  obtain ⟨defs, supplied, whole, hDefs, -, -, hSupplied, hWhole, hCalls⟩ :=
    default_parameters_expand hBefore hFirst hDistinct hRuns
  obtain rfl : family = defs := by
    rw [hNode] at hDefs
    injection hDefs
  refine ⟨moves, o, st', hRuns, hNode, ?_⟩
  rw [hCalls Atom interp dispatch [.int 5] le_rfl (by decide)]
  obtain _ | ⟨hValue, hRest⟩ := hSupplied
  cases hRest
  obtain hValue | _ := hValue
  obtain hBody | _ := hWhole
  rw [eq_readVar (.head _) hValue, eq_readVar (.tail _ (.head _)) hBody]
  show ((catchReturn (supply interp running _ _ [⟨item, some (readVar flag)⟩] >>= fun values =>
    frame interp _ values (branch interp (some (running (readVar item)))))).on _).1 = _
  rw [supply, Option.map_some, running_readVar, running_readVar]
  rfl

end Sample

end CoreTree
