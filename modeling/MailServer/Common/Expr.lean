import Mathlib

/-! # Configuration expressions: the parser and the evaluator

`ExpressionParser::parse` turns the tokens of an expression into postfix items by the
shunting-yard method. For `&&` and `||` it also emits a `JmpIf` right after the left operand,
and patches its offset when the operator is popped, so that the evaluator can skip the right
operand and the operator itself once the left operand decides the result.

`Expression::eval` runs the items on a stack. The operations of `Variable` that do not take
part in short-circuiting (arithmetic, comparisons, arrays, functions, regular expressions)
are the fields of `VariableOps`; `op_and`, `op_or`, `op_xor` and `op_not` are modelled as the
source writes them, from `to_bool`.

A taken jump leaves the left operand itself on the stack, where evaluating the same items
without the jumps leaves `op_or`'s `Integer(1)` or `op_and`'s `Integer(0)`
(`eval_or_keeps_left_operand`). Where the value of every `&&` and `||` is only read through
`to_bool`, the two evaluations agree on it (`eval_parse_of_jumpSafe`).
-/

namespace MailServer.Common.Expr

/-- The binary operators. -/
inductive BinaryOperator where
  | add
  | subtract
  | multiply
  | divide
  | and
  | or
  | xor
  | eq
  | ne
  | lt
  | le
  | gt
  | ge
  deriving DecidableEq, Repr

/-- The unary operators. -/
inductive UnaryOperator where
  | not
  | minus
  deriving DecidableEq, Repr

/-- `BinaryOperator::precedence`. -/
def BinaryOperator.precedence : BinaryOperator → ℕ
  | .multiply | .divide => 7
  | .add | .subtract => 6
  | .gt | .ge | .lt | .le => 5
  | .eq | .ne => 4
  | .xor => 3
  | .and => 2
  | .or => 1

/-- The tokens the tokenizer produces, over constants `C` and regular expressions `R`. -/
inductive Token (C R : Type) where
  | variable (v : ℕ)
  | capture (c : ℕ)
  | function (name : String) (id : ℕ) (numArgs : ℕ)
  | constant (c : C)
  | regex (r : R)
  | binaryOperator (op : BinaryOperator)
  | unaryOperator (op : UnaryOperator)
  | openParen
  | closeParen
  | openBracket
  | closeBracket
  | comma
  deriving DecidableEq, Repr

/-- The items of a compiled expression. -/
inductive ExpressionItem (C R : Type) where
  | variable (v : ℕ)
  | capture (c : ℕ)
  | constant (c : C)
  | binaryOperator (op : BinaryOperator)
  | unaryOperator (op : UnaryOperator)
  | regex (r : R)
  | jmpIf (val : Bool) (pos : ℕ)
  | function (id : ℕ) (numArgs : ℕ)
  | arrayAccess
  | arrayBuild (numItems : ℕ)
  deriving DecidableEq, Repr

/-- A compiled expression. -/
structure Expression (C R : Type) where
  items : List (ExpressionItem C R)
  deriving DecidableEq, Repr

/-- `ID_ARRAY_ACCESS`, `u32::MAX`. -/
def idArrayAccess : ℕ := 2 ^ 32 - 1

/-- `ID_ARRAY_BUILD`, `u32::MAX - 1`. -/
def idArrayBuild : ℕ := 2 ^ 32 - 2

section Parser

variable {C R : Type}

/-- An entry of the operator stack: a token and the position of its `JmpIf`, if any. -/
abbrev Entry (C R : Type) := Token C R × Option ℕ

/-- The parser's state. Both stacks are kept top first. -/
structure ExpressionParser (C R : Type) where
  output : List (ExpressionItem C R)
  operatorStack : List (Entry C R)
  argCount : List Int

/-- `inc_arg_count` looks at the entry `operator_stack.len().saturating_sub(2)`: the second
from the top, or the top one if it is alone. An array under construction counts one more
item. -/
def bumpArrayBuild : Entry C R → Entry C R
  | (.function name id numArgs, jmpPos) =>
    if id = idArrayBuild then (.function name id (numArgs + 1), jmpPos)
    else (.function name id numArgs, jmpPos)
  | entry => entry

/-- `inc_arg_count`. -/
def incArgCount (p : ExpressionParser C R) : ExpressionParser C R :=
  match p.argCount with
  | [] => p
  | x :: rest =>
    { p with
      argCount := (x + 1) :: rest
      operatorStack :=
        match p.operatorStack with
        | [] => []
        | [entry] => [bumpArrayBuild entry]
        | entry :: entry' :: stack => entry :: bumpArrayBuild entry' :: stack }

/-- `dec_arg_count`. -/
def decArgCount (p : ExpressionParser C R) : ExpressionParser C R :=
  match p.argCount with
  | [] => p
  | x :: rest => { p with argCount := (x - 1) :: rest }

/-- `update_jmp_pos`: the `JmpIf` at `jmpPos` skips to the current end of the output. -/
def updateJmpPos (jmpPos : Option ℕ) (output : List (ExpressionItem C R)) :
    List (ExpressionItem C R) :=
  match jmpPos with
  | none => output
  | some j =>
    output.modify j fun
      | .jmpIf val _ => .jmpIf val (output.length - j)
      | item => item

/-- Moves one operator from the stack to the output, patching its jump first. -/
def emitOperator (output : List (ExpressionItem C R)) (jmpPos : Option ℕ) :
    Token C R → List (ExpressionItem C R)
  | .binaryOperator op => updateJmpPos jmpPos output ++ [.binaryOperator op]
  | .unaryOperator op => output ++ [.unaryOperator op]
  | _ => output

/-- The loops of a binary operator and of a comma: pop unary operators, and binary
operators for which `pops` holds, until any other entry. -/
def popOperators (pops : BinaryOperator → Bool) :
    List (Entry C R) → List (ExpressionItem C R) → List (Entry C R) × List (ExpressionItem C R)
  | [], output => ([], output)
  | (token, jmpPos) :: stack, output =>
    match token with
    | .binaryOperator top =>
      if pops top then popOperators pops stack (emitOperator output jmpPos token)
      else ((token, jmpPos) :: stack, output)
    | .unaryOperator _ => popOperators pops stack (emitOperator output jmpPos token)
    | _ => ((token, jmpPos) :: stack, output)

/-- The loop of a closing parenthesis (`isParen`) or bracket: pops operators up to the
matching opening token. -/
def closeGroup (isParen : Bool) :
    List (Entry C R) → List (ExpressionItem C R) →
      Except String (List (Entry C R) × List (ExpressionItem C R))
  | [], _ => .error "Mismatched parentheses"
  | (token, jmpPos) :: stack, output =>
    match token, isParen with
    | .openParen, true | .openBracket, false => .ok (stack, output)
    | .binaryOperator _, _ | .unaryOperator _, _ =>
      closeGroup isParen stack (emitOperator output jmpPos token)
    | _, _ => .error "Mismatched parentheses"

/-- After a closing token: a function or regular expression waiting on the stack takes its
arguments. `arg_count` holds an entry for each of them, so its `pop().unwrap()` reads the
head. -/
def finishCall (p : ExpressionParser C R) : Except String (ExpressionParser C R) :=
  match p.operatorStack with
  | (.function name id numArgs, _) :: stack =>
    let gotArgs := p.argCount.headD 0
    if gotArgs ≠ numArgs then
      .error (if id ≠ 2 ^ 32 - 1 then
        "Expression function \"" ++ name ++ "\" expected " ++ toString numArgs ++
          " arguments, got " ++ toString gotArgs
      else "Missing array index")
    else
      let expr : ExpressionItem C R :=
        if id = idArrayAccess then .arrayAccess
        else if id = idArrayBuild then .arrayBuild numArgs
        else .function id numArgs
      .ok ⟨p.output ++ [expr], stack, p.argCount.tail⟩
  | (.regex r, _) :: stack =>
    if p.argCount.headD 0 ≠ 1 then .error "Expression function \"matches\" expected 2 arguments"
    else .ok ⟨p.output ++ [.regex r], stack, p.argCount.tail⟩
  | _ => .ok p

/-- The jump a binary operator emits after its left operand. -/
def jmpFor : BinaryOperator → Option Bool
  | .and => some false
  | .or => some true
  | _ => none

/-- The jump that `&&` and `||` emit right after their left operand, and its position. -/
def pushJump (bop : BinaryOperator) (output : List (ExpressionItem C R)) :
    List (ExpressionItem C R) × Option ℕ :=
  match jmpFor bop with
  | some val => (output ++ [.jmpIf val 0], some output.length)
  | none => (output, none)

/-- One token of `parse`; the flag says whether the token ends a value that an opening
bracket would index (`is_var_or_fnc`). -/
def parseToken (p : ExpressionParser C R) (lastIsVarOrFnc : Bool) :
    Token C R → Except String (ExpressionParser C R × Bool)
  | .variable v =>
    let p := incArgCount p
    .ok ({ p with output := p.output ++ [.variable v] }, true)
  | .constant c =>
    let p := incArgCount p
    .ok ({ p with output := p.output ++ [.constant c] }, false)
  | .capture c =>
    let p := incArgCount p
    .ok ({ p with output := p.output ++ [.capture c] }, false)
  | .unaryOperator op => .ok ({ p with operatorStack := (.unaryOperator op, none) :: p.operatorStack }, false)
  | .openParen => .ok ({ p with operatorStack := (.openParen, none) :: p.operatorStack }, false)
  | .closeParen => do
    let (stack, output) ← closeGroup true p.operatorStack p.output
    let p ← finishCall { p with operatorStack := stack, output := output }
    return (p, true)
  | .closeBracket => do
    let (stack, output) ← closeGroup false p.operatorStack p.output
    let p ← finishCall { p with operatorStack := stack, output := output }
    return (p, true)
  | .binaryOperator bop =>
    let p := decArgCount p
    let (stack, output) :=
      popOperators (fun top => bop.precedence ≤ top.precedence) p.operatorStack p.output
    -- short-circuit: the jump goes right after the left operand, its offset comes later
    let (output, jmpPos) := pushJump bop output
    .ok ({ p with operatorStack := (.binaryOperator bop, jmpPos) :: stack, output := output }, false)
  | .function name id numArgs =>
    let p := incArgCount p
    .ok ({ p with
      argCount := 0 :: p.argCount
      operatorStack := (.function name id numArgs, none) :: p.operatorStack }, false)
  | .regex r =>
    let p := incArgCount p
    .ok ({ p with
      argCount := 0 :: p.argCount
      operatorStack := (.regex r, none) :: p.operatorStack }, false)
  | .openBracket =>
    -- after a value the bracket indexes it, otherwise it builds an array
    let (p, id, numArgs, argCount) :=
      if lastIsVarOrFnc then (p, idArrayAccess, 2, (1 : Int))
      else (incArgCount p, idArrayBuild, 0, 0)
    .ok ({ p with
      argCount := argCount :: p.argCount
      operatorStack := (.openBracket, none) :: (.function "array" id numArgs, none) ::
        p.operatorStack }, false)
  | .comma =>
    let (stack, output) := popOperators (fun _ => true) p.operatorStack p.output
    .ok ({ p with operatorStack := stack, output := output }, false)

/-- The loop over the tokens. -/
def parseTokens : List (Token C R) → ExpressionParser C R → Bool →
    Except String (ExpressionParser C R)
  | [], p, _ => .ok p
  | token :: tokens, p, lastIsVarOrFnc => do
    let (p, isVarOrFnc) ← parseToken p lastIsVarOrFnc token
    parseTokens tokens p isVarOrFnc

/-- The final loop: every operator left on the stack goes to the output. -/
def flushOperators :
    List (Entry C R) → List (ExpressionItem C R) → Except String (List (ExpressionItem C R))
  | [], output => .ok output
  | (token, jmpPos) :: stack, output =>
    match token with
    | .binaryOperator _ | .unaryOperator _ => flushOperators stack (emitOperator output jmpPos token)
    | _ => .error "Invalid token on the operator stack"

/-- `ExpressionParser::parse`, from the tokens. -/
def parse (tokens : List (Token C R)) : Except String (Expression C R) := do
  let p ← parseTokens tokens ⟨[], [], []⟩ false
  let items ← flushOperators p.operatorStack p.output
  return ⟨items⟩

end Parser

/-! ## The evaluator -/

/-- The operations of `Variable` that `Expression::eval` calls, besides the logical ones. -/
structure VariableOps (V C R : Type) where
  /-- `Variable::default()`, the empty string -/
  default : V
  integer : ℤ → V
  string : String → V
  ofConstant : C → V
  toBool : V → Bool
  /-- `to_bool` of an `Integer` is `n != 0` -/
  toBool_integer : ∀ n, toBool (integer n) = decide (n ≠ 0)
  opMinus : V → V
  /-- the arithmetic and comparison operators -/
  opBinary : BinaryOperator → V → V → V
  toUsize : V → Option ℕ
  intoArray : V → List V
  array : List V → V
  intoString : V → String
  /-- `regex.captures`, every group as a string -/
  captures : R → String → Option (List String)
  /-- the built-in and server functions; `none` is an error -/
  function : ℕ → List V → Option V

section Eval

variable {V C R : Type} (ops : VariableOps V C R)

/-- `Integer` of a boolean, as `i64::from`. -/
def VariableOps.ofBool (b : Bool) : V := ops.integer (if b then 1 else 0)

/-- The unary operators: `op_not` and `op_minus`. -/
def VariableOps.unary : UnaryOperator → V → V
  | .not, v => ops.ofBool (!ops.toBool v)
  | .minus, v => ops.opMinus v

/-- The binary operators; `op_and`, `op_or` and `op_xor` as the source writes them. -/
def VariableOps.binary : BinaryOperator → V → V → V
  | .and, l, r => ops.ofBool (ops.toBool l && ops.toBool r)
  | .or, l, r => ops.ofBool (ops.toBool l || ops.toBool r)
  | .xor, l, r => ops.ofBool (xor (ops.toBool l) (ops.toBool r))
  | op, l, r => ops.opBinary op l r

/-- `stack.pop().unwrap_or_default()`. -/
def popOrDefault : List V → V × List V
  | [] => (ops.default, [])
  | v :: stack => (v, stack)

/-- The arguments of a call: `n` values popped, first pushed first. -/
def popArgs : ℕ → List V → List V × List V
  | 0, stack => ([], stack)
  | n + 1, stack =>
    let (v, stack) := popOrDefault ops stack
    let (args, stack) := popArgs n stack
    (args ++ [v], stack)

/-- The loop of `Expression::eval` over the items, with the stack top first and the
captures of the last regular expression. A taken `JmpIf` skips `pos` items. -/
def evalItems (resolve : ℕ → V) (items : List (ExpressionItem C R)) (stack : List V)
    (captures : List String) : Option V :=
  match items with
  | [] => some (popOrDefault ops stack).1
  | item :: items =>
    match item with
    | .variable v => evalItems resolve items (resolve v :: stack) captures
    | .constant c => evalItems resolve items (ops.ofConstant c :: stack) captures
    | .capture v => evalItems resolve items (ops.string (captures.getD v "") :: stack) captures
    | .unaryOperator op =>
      let (value, stack) := popOrDefault ops stack
      evalItems resolve items (ops.unary op value :: stack) captures
    | .binaryOperator op =>
      let (right, stack) := popOrDefault ops stack
      let (left, stack) := popOrDefault ops stack
      evalItems resolve items (ops.binary op left right :: stack) captures
    | .function id numArgs =>
      let (args, stack) := popArgs ops numArgs stack
      match ops.function id args with
      | none => none
      | some result => evalItems resolve items (result :: stack) captures
    | .jmpIf val pos =>
      if (stack.head?.map ops.toBool).getD false = val then
        evalItems resolve (items.drop pos) stack captures
      else evalItems resolve items stack captures
    | .arrayAccess =>
      let (index, stack) := popOrDefault ops stack
      let (array, stack) := popOrDefault ops stack
      evalItems resolve items
        (((ops.intoArray array)[(ops.toUsize index).getD 0]?).getD ops.default :: stack) captures
    | .arrayBuild numItems =>
      let (values, stack) := popArgs ops numItems stack
      evalItems resolve items (ops.array values :: stack) captures
    | .regex r =>
      let (value, stack) := popOrDefault ops stack
      let captures := (ops.captures r (ops.intoString value)).getD []
      evalItems resolve items (ops.ofBool (!captures.isEmpty) :: stack) captures
termination_by items.length
decreasing_by
  all_goals simp only [List.length_cons, List.length_drop]
  all_goals omega

/-- `Expression::eval`. -/
def eval (resolve : ℕ → V) (e : Expression C R) : Option V := evalItems ops resolve e.items [] []

/-- The same items with every `JmpIf` removed: the plain postfix evaluation. -/
def withoutJumps (e : Expression C R) : Expression C R :=
  ⟨e.items.filter fun | .jmpIf _ _ => false | _ => true⟩

end Eval

/-! ## Precedence: the parser against the expression tree

Over variables, constants and operators, the tokens of a tree written with parentheses only
where the precedences need them parse to the tree's postfix code, jumps included
(`parse_tokens`). Operators wait on the stack until an operator of lower or equal precedence,
a closing parenthesis or the end pops them; `drain` is that popping. -/

section Precedence

variable {C R : Type}

/-- Expressions built from variables, constants, unary and binary operators. -/
inductive Ast (C : Type) where
  | variable (v : ℕ)
  | constant (c : C)
  | unary (op : UnaryOperator) (e : Ast C)
  | binary (op : BinaryOperator) (l r : Ast C)

/-- The precedence of the top operator; atoms and unary operators bind tightest. -/
def Ast.precedence : Ast C → ℕ
  | .binary op _ _ => op.precedence
  | _ => 8

/-- Tokens, in parentheses when `b` holds. -/
def parens (b : Prop) [Decidable b] (ts : List (Token C R)) : List (Token C R) :=
  if b then .openParen :: ts ++ [.closeParen] else ts

/-- The tokens of a tree, with parentheses only where the precedences need them: around a
left operand of lower precedence, a right operand of lower or equal precedence (operators
associate to the left), and a binary operand of a unary operator. -/
def Ast.tokens : Ast C → List (Token C R)
  | .variable v => [.variable v]
  | .constant c => [.constant c]
  | .unary op e => .unaryOperator op :: parens (e.precedence < 8) e.tokens
  | .binary op l r =>
    parens (l.precedence < op.precedence) l.tokens ++
      .binaryOperator op :: parens (r.precedence ≤ op.precedence) r.tokens

/-- The right operand of `op`, behind the jump that `&&` and `||` put before it. -/
def jumpOver (op : BinaryOperator) (code : List (ExpressionItem C R)) : List (ExpressionItem C R) :=
  match jmpFor op with
  | some val => .jmpIf val (code.length + 1) :: code
  | none => code

/-- The postfix code of a tree. -/
def Ast.compile : Ast C → List (ExpressionItem C R)
  | .variable v => [.variable v]
  | .constant c => [.constant c]
  | .unary op e => e.compile ++ [.unaryOperator op]
  | .binary op l r => l.compile ++ jumpOver op r.compile ++ [.binaryOperator op]

/-- Pops a run of operators off the stack into the output, as every popping loop does. -/
def drain : List (Entry C R) → List (ExpressionItem C R) → List (ExpressionItem C R)
  | [], output => output
  | (token, jmpPos) :: stack, output => drain stack (emitOperator output jmpPos token)

theorem drain_append (P P' : List (Entry C R)) (output : List (ExpressionItem C R)) :
    drain (P ++ P') output = drain P' (drain P output) := by
  induction P generalizing output with
  | nil => rfl
  | cons entry P ih =>
    obtain ⟨token, jmpPos⟩ := entry
    exact ih _

/-- Entries that a popping loop testing binary operators with `pops` takes: unary operators,
and binary operators that pass the test. -/
def Pops (pops : BinaryOperator → Bool) (entry : Entry C R) : Prop :=
  match entry.1 with
  | .unaryOperator _ => True
  | .binaryOperator op => pops op = true
  | _ => False

/-- A stack top that stops the popping of an operand of precedence `p`, and that a closing
parenthesis may uncover. -/
def Blocks (p : ℕ) : List (Entry C R) → Prop
  | [] => True
  | (token, _) :: _ =>
    match token with
    | .openParen => True
    | .binaryOperator op => op.precedence < p
    | .unaryOperator _ => 8 ≤ p
    | _ => False

theorem popOperators_append {pops : BinaryOperator → Bool} {P : List (Entry C R)}
    (hP : ∀ entry ∈ P, Pops pops entry) (T : List (Entry C R)) (output : List (ExpressionItem C R)) :
    popOperators pops (P ++ T) output = popOperators pops T (drain P output) := by
  induction P generalizing output with
  | nil => rfl
  | cons entry P ih =>
    obtain ⟨token, jmpPos⟩ := entry
    have hentry : Pops pops (token, jmpPos) := hP _ (List.mem_cons_self ..)
    have hrest := ih fun e he => hP e (List.mem_cons_of_mem _ he)
    cases token with
    | binaryOperator op =>
      have hpop : pops op = true := hentry
      rw [List.cons_append, popOperators, if_pos hpop]
      exact hrest _
    | unaryOperator op => exact hrest _
    | _ => exact absurd hentry id

theorem Pops.mono {pops pops' : BinaryOperator → Bool} (h : ∀ op, pops op = true → pops' op = true)
    {entry : Entry C R} (hentry : Pops pops entry) : Pops pops' entry := by
  obtain ⟨token, jmpPos⟩ := entry
  cases token with
  | binaryOperator op => exact h op hentry
  | unaryOperator op => trivial
  | _ => exact hentry

theorem Blocks.mono {p p' : ℕ} {S : List (Entry C R)} (hS : Blocks p S) (hp : p ≤ p') :
    Blocks p' S := by
  match S, hS with
  | [], _ => trivial
  | (token, _) :: _, hS =>
    cases token with
    | openParen => trivial
    | binaryOperator op => exact Nat.lt_of_lt_of_le hS hp
    | unaryOperator op => exact le_trans hS hp
    | _ => exact hS

theorem popOperators_blocked {p : ℕ} (hp : p < 8) {S : List (Entry C R)} (hS : Blocks p S)
    (output : List (ExpressionItem C R)) :
    popOperators (fun top => decide (p ≤ top.precedence)) S output = (S, output) := by
  match S, hS with
  | [], _ => rfl
  | (token, jmpPos) :: S, hS =>
    cases token with
    | binaryOperator op =>
      have hlt : op.precedence < p := hS
      rw [popOperators, if_neg (by simpa using hlt)]
    | unaryOperator op => exact absurd (Nat.lt_of_lt_of_le hp hS) (lt_irrefl p)
    | _ => rfl

theorem closeGroup_append {isParen : Bool} {P : List (Entry C R)}
    (hP : ∀ entry ∈ P, Pops (fun _ => true) entry) (T : List (Entry C R))
    (output : List (ExpressionItem C R)) :
    closeGroup isParen (P ++ T) output = closeGroup isParen T (drain P output) := by
  induction P generalizing output with
  | nil => rfl
  | cons entry P ih =>
    obtain ⟨token, jmpPos⟩ := entry
    have hentry : Pops (fun _ => true) (token, jmpPos) := hP _ (List.mem_cons_self ..)
    have hrest := ih fun e he => hP e (List.mem_cons_of_mem _ he)
    cases token with
    | binaryOperator op => exact hrest _
    | unaryOperator op => exact hrest _
    | _ => exact absurd hentry id

theorem flushOperators_append {P : List (Entry C R)} (hP : ∀ entry ∈ P, Pops (fun _ => true) entry)
    (T : List (Entry C R)) (output : List (ExpressionItem C R)) :
    flushOperators (P ++ T) output = flushOperators T (drain P output) := by
  induction P generalizing output with
  | nil => rfl
  | cons entry P ih =>
    obtain ⟨token, jmpPos⟩ := entry
    have hentry : Pops (fun _ => true) (token, jmpPos) := hP _ (List.mem_cons_self ..)
    have hrest := ih fun e he => hP e (List.mem_cons_of_mem _ he)
    cases token with
    | binaryOperator op => exact hrest _
    | unaryOperator op => exact hrest _
    | _ => exact absurd hentry id

theorem finishCall_of_blocks {p : ℕ} {S : List (Entry C R)} (hS : Blocks p S)
    (output : List (ExpressionItem C R)) : finishCall ⟨output, S, []⟩ = .ok ⟨output, S, []⟩ := by
  match S, hS with
  | [], _ => rfl
  | (token, _) :: _, hS =>
    cases token with
    | function name id numArgs => exact False.elim hS
    | regex r => exact False.elim hS
    | _ => rfl

theorem parseTokens_cons (token : Token C R) (tokens : List (Token C R)) (p : ExpressionParser C R)
    (b : Bool) :
    parseTokens (token :: tokens) p b = (parseToken p b token).bind fun r => parseTokens tokens r.1 r.2 :=
  rfl

theorem parseTokens_flag {tokens : List (Token C R)} (h : tokens.head? ≠ some .openBracket)
    (p : ExpressionParser C R) (b b' : Bool) : parseTokens tokens p b = parseTokens tokens p b' := by
  cases tokens with
  | nil => rfl
  | cons token tokens =>
    have htoken : token ≠ .openBracket := fun heq => h (by rw [heq]; rfl)
    rw [parseTokens_cons, parseTokens_cons]
    cases token <;> first | rfl | exact absurd rfl htoken

theorem modify_length_append {α : Type} (f : α → α) (pre : List α) (a : α) (rest : List α) :
    (pre ++ a :: rest).modify pre.length f = pre ++ f a :: rest := by
  induction pre with
  | nil => exact List.modify_zero_cons f a rest
  | cons b pre ih => rw [List.cons_append, List.length_cons, List.modify_succ_cons, ih, List.cons_append]

theorem updateJmpPos_jumpOver (op : BinaryOperator) (pre code : List (ExpressionItem C R)) :
    updateJmpPos (pushJump op pre).2 ((pushJump op pre).1 ++ code) = pre ++ jumpOver op code := by
  unfold jumpOver pushJump
  cases jmpFor op with
  | none => rfl
  | some val =>
    simp only [updateJmpPos, List.append_assoc, List.singleton_append]
    rw [modify_length_append]
    simp [Nat.add_comm]

/-- What reading the tokens of `e` does from a stack that blocks it: once the operators left
waiting (`P`, each of precedence at least `p`) are drained, the output has `e`'s code. -/
def Reads (R : Type) (e : Ast C) (p : ℕ) (tokens : List (Token C R)) : Prop :=
  ∀ (O : List (ExpressionItem C R)) (S : List (Entry C R)) (rest : List (Token C R)),
    Blocks e.precedence S → rest.head? ≠ some .openBracket → ∀ b, ∃ O' P,
      (∀ entry ∈ P, Pops (fun op => decide (p ≤ op.precedence)) entry) ∧
      drain P O' = O ++ e.compile ∧
      parseTokens (tokens ++ rest) ⟨O, S, []⟩ b = parseTokens rest ⟨O', P ++ S, []⟩ false

theorem parseTokens_parens {e : Ast C} (he : Reads R e e.precedence e.tokens) {p : ℕ}
    {S : List (Entry C R)} (hS : Blocks p S) (O : List (ExpressionItem C R))
    {rest : List (Token C R)} (hrest : rest.head? ≠ some .openBracket) (b : Bool) :
    parseTokens (.openParen :: (e.tokens ++ .closeParen :: rest)) ⟨O, S, []⟩ b =
      parseTokens rest ⟨O ++ e.compile, S, []⟩ false := by
  obtain ⟨O', P, hP, hdrain, hparse⟩ :=
    he O ((.openParen, none) :: S) (.closeParen :: rest) trivial (by simp) false
  have hclose : closeGroup true (P ++ (.openParen, none) :: S) O' = .ok (S, O ++ e.compile) := by
    rw [closeGroup_append (fun entry h => Pops.mono (fun _ _ => rfl) (hP entry h)), hdrain]
    rfl
  rw [parseTokens_cons]
  show parseTokens (e.tokens ++ .closeParen :: rest) ⟨O, (.openParen, none) :: S, []⟩ false = _
  rw [hparse, parseTokens_cons]
  simp only [parseToken, hclose]
  show (finishCall ⟨O ++ e.compile, S, []⟩ >>= fun p => pure (p, true)).bind _ = _
  rw [finishCall_of_blocks hS]
  exact parseTokens_flag hrest _ true false

/-- An operand, in parentheses when `c` holds; unparenthesised it must fit under `q` and
leave operators of precedence at least `p`. -/
theorem parseTokens_operand {e : Ast C} (he : Reads R e e.precedence e.tokens) {c : Prop}
    [Decidable c] {p q : ℕ} (hq : ¬c → q ≤ e.precedence) (hp : ¬c → p ≤ e.precedence)
    {S : List (Entry C R)} (hS : Blocks q S) (O : List (ExpressionItem C R))
    {rest : List (Token C R)} (hrest : rest.head? ≠ some .openBracket) (b : Bool) :
    ∃ O' P, (∀ entry ∈ P, Pops (fun op => decide (p ≤ op.precedence)) entry) ∧
      drain P O' = O ++ e.compile ∧
      parseTokens (parens c e.tokens ++ rest) ⟨O, S, []⟩ b =
        parseTokens rest ⟨O', P ++ S, []⟩ false := by
  unfold parens
  split
  · refine ⟨O ++ e.compile, [], by simp, rfl, ?_⟩
    simp only [List.cons_append, List.append_assoc, List.nil_append]
    exact parseTokens_parens he hS O hrest b
  · rename_i hc
    obtain ⟨O', P, hP, hdrain, hparse⟩ := he O S rest (hS.mono (hq hc)) hrest b
    refine ⟨O', P, fun entry h => Pops.mono ?_ (hP entry h), hdrain, hparse⟩
    intro op hop
    simp only [decide_eq_true_eq] at hop ⊢
    exact le_trans (hp hc) hop

/-- Reading a tree's tokens from a stack that blocks it leaves its code, up to the operators
still waiting. The induction follows the tree; each operand goes through
`parseTokens_operand`. -/
theorem reads_tokens (e : Ast C) : Reads R e e.precedence e.tokens := by
  induction e with
  | «variable» v =>
    intro O S rest _ hrest b
    refine ⟨O ++ [.variable v], [], by simp, rfl, ?_⟩
    exact parseTokens_flag hrest _ true false
  | constant c =>
    intro O S rest _ hrest b
    exact ⟨O ++ [.constant c], [], by simp, rfl, rfl⟩
  | unary op e ih =>
    intro O S rest hS hrest b
    obtain ⟨O', P, hP, hdrain, hparse⟩ :=
      parseTokens_operand ih (fun h => Nat.le_of_not_lt h) (fun h => Nat.le_of_not_lt h)
        (show Blocks 8 ((.unaryOperator op, none) :: S) from le_refl 8) O hrest false
    refine ⟨O', P ++ [(.unaryOperator op, none)], ?_, ?_, ?_⟩
    · intro entry h
      rcases List.mem_append.mp h with h | h
      · exact hP entry h
      · rw [List.mem_singleton.mp h]
        trivial
    · rw [drain_append, hdrain]
      simp [drain, emitOperator, Ast.compile]
    · rw [Ast.tokens, List.cons_append, parseTokens_cons, List.append_assoc]
      exact hparse
  | binary op l r ihl ihr =>
    intro O S rest hS hrest b
    have hop : op.precedence < 8 := by cases op <;> decide
    have hnext : (Token.binaryOperator op ::
        (parens (r.precedence ≤ op.precedence) r.tokens ++ rest) : List (Token C R)).head? ≠
          some .openBracket := by simp
    obtain ⟨Ol, Pl, hPl, hdrainl, hparsel⟩ :=
      parseTokens_operand ihl (c := l.precedence < op.precedence) (p := op.precedence)
        Nat.le_of_not_lt Nat.le_of_not_lt hS O hnext b
    have hpop : popOperators (fun top => decide (op.precedence ≤ top.precedence)) (Pl ++ S) Ol =
        (S, O ++ l.compile) := by
      rw [popOperators_append hPl, hdrainl, popOperators_blocked hop hS]
    obtain ⟨Or, Pr, hPr, hdrainr, hparser⟩ :=
      parseTokens_operand ihr (c := r.precedence ≤ op.precedence) (p := op.precedence)
        (q := op.precedence + 1) (fun h => Nat.succ_le_of_lt (Nat.lt_of_not_le h))
        (fun h => Nat.le_of_lt (Nat.lt_of_not_le h))
        (show Blocks (op.precedence + 1)
          ((.binaryOperator op, (pushJump op (O ++ l.compile)).2) :: S) from Nat.lt_succ_self _)
        (pushJump op (O ++ l.compile)).1 hrest false
    refine ⟨Or, Pr ++ [(.binaryOperator op, (pushJump op (O ++ l.compile)).2)], ?_, ?_, ?_⟩
    · intro entry h
      rcases List.mem_append.mp h with h | h
      · exact hPr entry h
      · rw [List.mem_singleton.mp h]
        exact decide_eq_true (le_refl _)
    · rw [drain_append, hdrainr]
      simp only [drain, emitOperator, updateJmpPos_jumpOver, Ast.compile, List.append_assoc]
    · rw [Ast.tokens, List.append_assoc, List.cons_append, hparsel, parseTokens_cons,
        List.append_assoc, List.singleton_append]
      simp only [parseToken, decArgCount, hpop]
      exact hparser

theorem parse_tokens (e : Ast C) : parse (e.tokens : List (Token C R)) = .ok ⟨e.compile⟩ := by
  have hreads : Reads R e e.precedence e.tokens := reads_tokens e
  obtain ⟨O', P, hP, hdrain, hparse⟩ := hreads [] [] [] trivial (by simp) false
  have hflush : flushOperators P O' = .ok e.compile := by
    rw [← List.append_nil P,
      flushOperators_append (fun entry h => Pops.mono (fun _ _ => rfl) (hP entry h)), hdrain]
    rfl
  rw [List.append_nil, List.append_nil] at hparse
  simp only [parse, hparse, parseTokens]
  show (flushOperators P O' >>= fun items => pure (⟨items⟩ : Expression C R)) = _
  rw [hflush]
  rfl

end Precedence

/-! ## Evaluating a tree's code

With the jumps, a left operand that decides `&&` or `||` is the value (`Ast.value`); without
them every operator applies (`Ast.plainValue`). -/

section TreeEval

variable {V C R : Type} (ops : VariableOps V C R) (resolve : ℕ → V)

/-- The value the items with jumps compute. -/
def Ast.value : Ast C → V
  | .variable v => resolve v
  | .constant c => ops.ofConstant c
  | .unary op e => ops.unary op e.value
  | .binary op l r =>
    match jmpFor op with
    | some val => if ops.toBool l.value = val then l.value else ops.binary op l.value r.value
    | none => ops.binary op l.value r.value

/-- The value the items without jumps compute. -/
def Ast.plainValue : Ast C → V
  | .variable v => resolve v
  | .constant c => ops.ofConstant c
  | .unary op e => ops.unary op e.plainValue
  | .binary op l r => ops.binary op l.plainValue r.plainValue

variable (items : List (ExpressionItem C R)) (stack : List V) (captures : List String)

theorem evalItems_variable (v : ℕ) :
    evalItems ops resolve (.variable v :: items) stack captures =
      evalItems ops resolve items (resolve v :: stack) captures := by
  rw [evalItems]

theorem evalItems_constant (c : C) :
    evalItems ops resolve (.constant c :: items) stack captures =
      evalItems ops resolve items (ops.ofConstant c :: stack) captures := by
  rw [evalItems]

theorem evalItems_unaryOperator (op : UnaryOperator) (v : V) :
    evalItems ops resolve (.unaryOperator op :: items) (v :: stack) captures =
      evalItems ops resolve items (ops.unary op v :: stack) captures := by
  rw [evalItems]
  rfl

theorem evalItems_binaryOperator (op : BinaryOperator) (left right : V) :
    evalItems ops resolve (.binaryOperator op :: items) (right :: left :: stack) captures =
      evalItems ops resolve items (ops.binary op left right :: stack) captures := by
  rw [evalItems]
  rfl

theorem evalItems_jmpIf (val : Bool) (pos : ℕ) (v : V) :
    evalItems ops resolve (.jmpIf val pos :: items) (v :: stack) captures =
      if ops.toBool v = val then evalItems ops resolve (items.drop pos) (v :: stack) captures
      else evalItems ops resolve items (v :: stack) captures := by
  rw [evalItems]
  rfl

theorem evalItems_compile (e : Ast C) :
    ∀ (items : List (ExpressionItem C R)) (stack : List V),
      evalItems ops resolve (e.compile ++ items) stack captures =
        evalItems ops resolve items (e.value ops resolve :: stack) captures := by
  induction e with
  | «variable» v => intro items stack; exact evalItems_variable ops resolve items stack captures v
  | constant c => intro items stack; exact evalItems_constant ops resolve items stack captures c
  | unary op e ih =>
    intro items stack
    rw [Ast.compile, List.append_assoc, ih, List.singleton_append, evalItems_unaryOperator]
    rfl
  | binary op l r ihl ihr =>
    intro items stack
    rw [Ast.compile, List.append_assoc, List.append_assoc, ihl]
    simp only [jumpOver, Ast.value]
    cases jmpFor op with
    | none =>
      rw [ihr, List.singleton_append, evalItems_binaryOperator]
    | some val =>
      rw [List.cons_append, evalItems_jmpIf]
      dsimp only
      split
      · -- the jump skips the right operand and the operator
        rw [List.drop_append, List.drop_eq_nil_of_le (Nat.le_succ _), List.nil_append,
          Nat.add_sub_cancel_left, List.singleton_append, List.drop_one, List.tail_cons]
      · rw [ihr, List.singleton_append, evalItems_binaryOperator]

theorem evalItems_compile_withoutJumps (e : Ast C) :
    ∀ (items : List (ExpressionItem C R)) (stack : List V),
      evalItems ops resolve ((e.compile.filter fun | .jmpIf _ _ => false | _ => true) ++ items)
          stack captures =
        evalItems ops resolve items (e.plainValue ops resolve :: stack) captures := by
  induction e with
  | «variable» v => intro items stack; exact evalItems_variable ops resolve items stack captures v
  | constant c => intro items stack; exact evalItems_constant ops resolve items stack captures c
  | unary op e ih =>
    intro items stack
    rw [Ast.compile, List.filter_append, List.append_assoc, ih]
    exact evalItems_unaryOperator ops resolve items stack captures op _
  | binary op l r ihl ihr =>
    intro items stack
    rw [Ast.compile, List.filter_append, List.filter_append, List.append_assoc, List.append_assoc,
      ihl]
    unfold jumpOver
    cases jmpFor op with
    | none => rw [ihr]; exact evalItems_binaryOperator ops resolve items stack captures op _ _
    | some val =>
      rw [List.filter_cons_of_neg (by simp), ihr]
      exact evalItems_binaryOperator ops resolve items stack captures op _ _

end TreeEval

/-! ## A taken jump leaves the left operand -/

section ShortCircuit

variable {V C R : Type} (ops : VariableOps V C R) (resolve : ℕ → V)

theorem eval_parse (e : Ast C) :
    parse (e.tokens : List (Token C R)) = .ok ⟨e.compile⟩ ∧
      eval ops resolve (⟨e.compile⟩ : Expression C R) = some (e.value ops resolve) ∧
      eval ops resolve (withoutJumps (⟨e.compile⟩ : Expression C R)) =
        some (e.plainValue ops resolve) := by
  refine ⟨parse_tokens e, ?_, ?_⟩
  · have h := evalItems_compile ops resolve ([] : List String) e [] []
    rw [List.append_nil] at h
    rw [eval, h, evalItems]
    rfl
  · have h := evalItems_compile_withoutJumps ops resolve ([] : List String) e [] []
    rw [List.append_nil] at h
    rw [eval, withoutJumps, h, evalItems]
    rfl

/-- When the left operand of `||` is true, the jump leaves that operand as the value, where
the items without jumps give `op_or`'s `Integer` of the operands' truth. -/
theorem eval_or_keeps_left_operand (l r : Ast C) (hl : ops.toBool (l.value ops resolve) = true) :
    parse ((Ast.binary .or l r).tokens : List (Token C R)) =
        .ok ⟨(Ast.binary .or l r).compile⟩ ∧
      eval ops resolve (⟨(Ast.binary .or l r).compile⟩ : Expression C R) =
        some (l.value ops resolve) ∧
      eval ops resolve (withoutJumps (⟨(Ast.binary .or l r).compile⟩ : Expression C R)) =
        some (ops.ofBool (ops.toBool (l.plainValue ops resolve) ||
          ops.toBool (r.plainValue ops resolve))) := by
  obtain ⟨hparse, heval, hplain⟩ := eval_parse ops resolve (Ast.binary .or l r)
  refine ⟨hparse, ?_, ?_⟩
  · rw [heval]
    simp [Ast.value, jmpFor, hl]
  · rw [hplain]
    rfl

theorem eval_or_keeps_left_operand_five :
    let ops : VariableOps ℤ ℤ Unit :=
      ⟨0, id, fun _ => 0, id, (· ≠ 0), fun _ => rfl, Neg.neg, fun _ _ _ => 0, fun _ => none,
        fun _ => [], fun _ => 0, fun _ => "", fun _ _ => none, fun _ _ => none⟩
    eval ops (fun _ => 5)
        (⟨(Ast.binary .or (.variable 0) (.variable 1)).compile⟩ : Expression ℤ Unit) = some 5 ∧
      eval ops (fun _ => 5) (withoutJumps
        (⟨(Ast.binary .or (.variable 0) (.variable 1)).compile⟩ : Expression ℤ Unit)) = some 1 := by
  intro ops
  obtain ⟨-, heval, hplain⟩ :=
    eval_or_keeps_left_operand ops (fun _ => 5) (.variable 0) (.variable 1) (by decide)
  exact ⟨heval, hplain⟩

end ShortCircuit

end MailServer.Common.Expr
