import CoreTree.Tree.Generics
import CoreTree.Unicode.Alphabetic

/-! # Printed trees

A tree in surface form. Statements stand one to a line and bodies are indented by two
spaces; a sequence inside an expression is written `(a; b)`. A variable shows its version
unless it is 0. Calls whose name is an operator, an index write or a setter are written
infix, and then an operand that is itself infix is put in parentheses. Texts are written as
they are, without escapes.
-/
namespace CoreTree
set_option autoImplicit false

inductive CallForm where
  | operator
  | indexWrite
  | setter
  | plain
deriving DecidableEq

namespace CallForm

def operatorChars : List Char := ['+', '-', '*', '/', '%', '<', '>', '=', '!', '&', '|', '^', '~']

def isOperatorName (name : String) : Bool :=
  !name.isEmpty && name.toList.all (operatorChars.contains ·)

/-- A setter's name is a word followed by `=`. -/
def isSetterName (name : String) : Bool :=
  name.toList.getLast? == some '=' &&
    match name.toList with
    | c :: _ => Unicode.isAlphabetic c || c == '_'
    | [] => false

/-- A call with a block, or with another number of arguments, is written plainly. -/
def of (name : String) (argCount : Nat) (hasBlock : Bool) : CallForm :=
  if hasBlock then .plain
  else if argCount = 1 && isOperatorName name then .operator
  else if argCount = 2 && name = "[]=" then .indexWrite
  else if argCount = 1 && isSetterName name then .setter
  else .plain

end CallForm

/-- What a printer looks up: the strings of symbols, and the text of a generic type that
stands at a given indentation. -/
structure Wording where
  names : SymbolTable
  typeText : Nat → TypeId → String

namespace Wording

def path (w : Wording) (p : ConstPath) : String :=
  (if p.isGlobal then "::" else "") ++ "::".intercalate (p.names.map w.names.text)

def var (w : Wording) (v : Var) : String :=
  (if v.out then "out " else "") ++ w.names.text v.name ++
    (if v.version > 0 then ":" ++ toString v.version else "")

def atom (w : Wording) (indent : Nat) : Atom → String
  | .nop => ""
  | .nil => "nil"
  | .self => "self"
  | .bool true => "true"
  | .bool false => "false"
  | .int n => toString n
  | .str text => "\"" ++ w.names.text text ++ "\""
  | .temp name => w.names.text name
  | .field name => "@" ++ w.names.text name
  | .const path => w.path path
  | .generic type => w.typeText indent type

/-- Infix forms, which an operand must not show bare. -/
def isInfix (w : Wording) : Node → Bool
  | .assign .. | .multi .. | .logic .. => true
  | .call _ (some _) name args block =>
    CallForm.of (w.names.text name) args.length block.isSome == .operator
  | _ => false

def operand (w : Wording) (n : Node) (text : String) : String :=
  if w.isInfix n then "(" ++ text ++ ")" else text

end Wording

namespace Printer

def newline (indent : Nat) : String := "\n" ++ "".pushn ' ' (2 * indent)

def commas (texts : List String) : String := ", ".intercalate texts

def lines (indent : Nat) (texts : List String) : String :=
  String.join (texts.map (newline indent ++ ·))

def condWord : CondForm → String
  | .whenTrue => "if "
  | .whenFalse => "unless "

def logicWord : LogicOp → String
  | .and => " && "
  | .or => " || "

def jumpWord : JumpKind → String
  | .ret => "return"
  | .brk => "break"
  | .next => "next"

def defWord : DefKind → String
  | .method => "def "
  | .macroDef => "macro "

/-- The argument list is left out only where a receiver shows that this is a call. -/
def plainCall (receiver : Option String) (name : String) (args : List String) : String :=
  let list := "(" ++ commas args ++ ")"
  match receiver with
  | none => name ++ list
  | some r => r ++ "." ++ name ++ if args.isEmpty then "" else list

/-- A call without its block. `receiver` is an operand's text, `args` are the arguments with
their texts. -/
def call (w : Wording) (receiver : Option String) (name : String) (args : List (Node × String))
    (hasBlock : Bool) : String :=
  match receiver, CallForm.of name args.length hasBlock, args with
  | some r, .operator, [(arg, text)] => r ++ " " ++ name ++ " " ++ w.operand arg text
  | some r, .indexWrite, [(_, index), (_, value)] => r ++ "[" ++ index ++ "] = " ++ value
  | some r, .setter, [(_, value)] =>
    r ++ "." ++ String.ofList name.toList.dropLast ++ " = " ++ value
  | receiver, _, args => plainCall receiver name (args.map (·.2))

def blockParams (w : Wording) (params : List Symbol) : String :=
  if params.isEmpty then "" else " |" ++ commas (params.map w.names.text) ++ "|"

def param (w : Wording) (name : Symbol) (default : Option String) : String :=
  w.names.text name ++ (default.map (" = " ++ ·)).getD ""

end Printer

open Printer

mutual
def Node.expr (w : Wording) (indent : Nat) : Node → String
  | .atom _ a => w.atom indent a
  | .var _ v => w.var v
  | .seq _ stmts => "(" ++ "; ".intercalate (exprs w indent stmts) ++ ")"
  | .cond _ form test body other =>
    condWord form ++ test.expr w indent ++ bodyText w indent body ++
      elseText w indent other ++ newline indent ++ "end"
  | .loop _ test body =>
    "while " ++ test.expr w indent ++ bodyText w indent body ++ newline indent ++ "end"
  | .choose _ subject whens other =>
    "case " ++ subject.expr w indent ++ whenTexts w indent whens ++
      elseText w indent other ++ newline indent ++ "end"
  | .logic _ op left right =>
    w.operand left (left.expr w indent) ++ logicWord op ++ w.operand right (right.expr w indent)
  | .jump _ kind value => jumpWord kind ++ ((optionExpr w indent value).map (" " ++ ·)).getD ""
  | .assign _ target value => target.expr w indent ++ " = " ++ value.expr w indent
  | .multi _ targets values =>
    commas (exprs w indent targets) ++ " = " ++ commas (exprs w indent values)
  | .call _ receiver name args none =>
    call w (operandText w indent receiver) (w.names.text name) (args.zip (exprs w indent args))
      false
  | .call _ receiver name args (some ⟨params, body⟩) =>
    call w (operandText w indent receiver) (w.names.text name) (args.zip (exprs w indent args))
        true ++
      " do" ++ blockParams w params ++ bodyText w indent body ++ newline indent ++ "end"
  | .isA _ subject type =>
    w.operand subject (subject.expr w indent) ++ ".is_a?(" ++ w.path type ++ ")"
  | .define _ kind name params body =>
    defWord kind ++ w.names.text name ++
      (if params.isEmpty then "" else "(" ++ commas (paramTexts w indent params) ++ ")") ++
      bodyText w indent body ++ newline indent ++ "end"
  | .interp _ pieces => "\"" ++ pieceTexts w indent pieces ++ "\""
  | .range _ first last exclusive =>
    w.operand first (first.expr w indent) ++ (if exclusive then "..." else "..") ++
      w.operand last (last.expr w indent)
  | .regex _ text => "/" ++ w.names.text text ++ "/"
  | .array _ elements type =>
    "[" ++ commas (exprs w indent elements) ++ "]" ++
      (type.map (" of " ++ w.path ·)).getD ""
  | .hash _ entries types =>
    "\x7b" ++ commas (entryTexts w indent entries) ++ "\x7d" ++
      (types.map fun t => " of " ++ w.path t.key ++ " => " ++ w.path t.value).getD ""
  | .require _ path => "require \"" ++ w.names.text path ++ "\""
termination_by structural n => n

def optionExpr (w : Wording) (indent : Nat) : Option Node → Option String
  | none => none
  | some n => some (n.expr w indent)
termination_by structural n => n

def operandText (w : Wording) (indent : Nat) : Option Node → Option String
  | none => none
  | some n => some (w.operand n (n.expr w indent))
termination_by structural n => n

def bodyText (w : Wording) (indent : Nat) : Option Node → String
  | none => ""
  | some (.seq _ stmts) => lines (indent + 1) (exprs w (indent + 1) stmts)
  | some n => lines (indent + 1) [n.expr w (indent + 1)]
termination_by structural n => n

def elseText (w : Wording) (indent : Nat) : Option Node → String
  | none => ""
  | some (.seq _ stmts) =>
    newline indent ++ "else" ++ lines (indent + 1) (exprs w (indent + 1) stmts)
  | some n => newline indent ++ "else" ++ lines (indent + 1) [n.expr w (indent + 1)]
termination_by structural n => n

def exprs (w : Wording) (indent : Nat) : List Node → List String
  | [] => []
  | n :: ns => n.expr w indent :: exprs w indent ns
termination_by structural n => n

def whenTexts (w : Wording) (indent : Nat) : List (When Node) → String
  | [] => ""
  | ⟨patterns, body⟩ :: whens =>
    newline indent ++ "when " ++ commas (exprs w indent patterns) ++ bodyText w indent body ++
      whenTexts w indent whens
termination_by structural n => n

def paramTexts (w : Wording) (indent : Nat) : List (Param Node) → List String
  | [] => []
  | ⟨name, default⟩ :: params =>
    param w name (optionExpr w indent default) :: paramTexts w indent params
termination_by structural n => n

/-- Text pieces stand bare, all others between braces. -/
def pieceTexts (w : Wording) (indent : Nat) : List Node → String
  | [] => ""
  | .atom _ (.str text) :: pieces => w.names.text text ++ pieceTexts w indent pieces
  | piece :: pieces => "#\x7b" ++ piece.expr w indent ++ "\x7d" ++ pieceTexts w indent pieces
termination_by structural n => n

def entryTexts (w : Wording) (indent : Nat) : List (HashEntry Node) → List String
  | [] => []
  | ⟨key, value⟩ :: entries =>
    (key.expr w indent ++ " => " ++ value.expr w indent) :: entryTexts w indent entries
termination_by structural n => n
end

namespace TypePool

def rawText (id : TypeId) : String := s!"<generic#{id.index}>"

/-- The text of a type whose arguments nest no deeper than `depth` types; a type beyond that,
or outside the pool, shows its number. -/
def textWithin (p : TypePool) (names : SymbolTable) : Nat → Nat → TypeId → String
  | 0, _, id => rawText id
  | depth + 1, indent, id =>
    let w : Wording := ⟨names, p.textWithin names depth⟩
    match p.get? id with
    | none => rawText id
    | some t => names.text t.base ++ "(" ++ commas (t.args.map fun
        | .named path => w.path path
        | .merged nodes => "typeof(" ++ commas (exprs w indent nodes) ++ ")") ++ ")"

end TypePool

namespace Wording

def plain (names : SymbolTable) : Wording := ⟨names, fun _ => TypePool.rawText⟩

/-- Types are spelled out. Those of one pool nest at most as deep as the pool is long. -/
def ofPool (names : SymbolTable) (p : TypePool) : Wording := ⟨names, p.textWithin names p.size⟩

end Wording

/-- A whole tree: the statements of a sequence, or one expression. -/
def Node.print (w : Wording) : Node → String
  | .seq _ stmts => "\n".intercalate (exprs w 0 stmts)
  | n => n.expr w 0

inductive PrintError where
  | unknownType (count : Nat) (type : TypeId)
deriving DecidableEq

def PrintError.message : PrintError → String
  | .unknownType count type =>
    s!"index out of bounds: the len is {count} but the index is {type.index}"

/-- Prints a tree with its types spelled out, if the pool holds them all. -/
def TypePool.print (p : TypePool) (names : SymbolTable) (n : Node) : Except PrintError String :=
  match p.missing? (p.size + 1) n.generics with
  | some type => .error (.unknownType p.size type)
  | none => .ok (n.print (.ofPool names p))

end CoreTree
