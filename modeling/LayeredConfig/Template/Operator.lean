import LayeredConfig.Template.Spelling
import LayeredConfig.Text.Replace

/-!
# Operators of templates

Every operator takes two items and gives one, or fails where the items do not go
together.  The results of arithmetic on whole numbers must have 128 bits.

* `BinaryOp.apply?` is the meaning of an operator, `Item.negate?` that of the
  sign in front.
-/

namespace LayeredConfig.Template

/-- The operators between two expressions. -/
inductive BinaryOp where
  | add | subtract | multiply | divide | quotient | remainder | power | join
  | equal | different | less | atMost | greater | atLeast | among | notAmong
  deriving DecidableEq, Repr

namespace Item

/-- The items of a list or a stream. -/
def series? : Item → Option (List Item)
  | list items | stream items => some items
  | _ => none

/-- Texts and lists are put together, numbers are added. -/
def add? (a b : Item) : Option Item :=
  match a.series?, b.series? with
  | some as, some bs => some (stream (as ++ bs))
  | _, _ =>
    match operands? false a b with
    | some (.whole i j) => wholeItem? (i + j)
    | some (.float x y) => some (float (x + y))
    | some (.text s t) => some (text (s ++ t))
    | none => none

/-- The difference of two numbers. -/
def subtract? (a b : Item) : Option Item :=
  match operands? false a b with
  | some (.whole i j) => wholeItem? (i - j)
  | some (.float x y) => some (float (x - y))
  | _ => none

/-- So many copies of a list put together. -/
def copies {α : Type} (n : Nat) (as : List α) : List α :=
  if as.isEmpty then [] else (List.replicate n as).flatten

/-- A text as often as the other operand says. -/
def repeatText? (s : String) (count : Item) : Option Item :=
  count.toCount?.map fun n => text (String.ofList (copies n s.toList))

/-- The items of a list as often as the other operand says. -/
def repeatItems? (items : List Item) (count : Item) : Option Item :=
  count.toCount?.map fun n => stream (copies n items)

/-- A text or a list, as often as the other operand says; or the product of two
numbers. -/
def multiply? : Item → Item → Option Item
  | text s, b | b, text s => repeatText? s b
  | a, b =>
    match a.series?, b.series? with
    | some items, _ => repeatItems? items b
    | none, some items => repeatItems? items a
    | none, none =>
      match operands? false a b with
      | some (.whole i j) => wholeItem? (i * j)
      | some (.float x y) => some (float (x * y))
      | _ => none

/-- The quotient of two numbers as a float. -/
def divide? (a b : Item) : Option Item := do
  let x ← a.toFloat? false
  let y ← b.toFloat? false
  some (float (x / y))

/-- The whole quotient of two numbers: the remainder that goes with it is not
negative. -/
def quotient? (a b : Item) : Option Item :=
  match operands? false a b with
  | some (.whole i j) => if j = 0 then none else wholeItem? (i / j)
  | some (.float x y) => some (float (floorTowards x y))
  | _ => none

/-- The remainder of two numbers: for whole numbers never negative, for floats
with the sign of the first. -/
def remainder? (a b : Item) : Option Item :=
  match operands? false a b with
  | some (.whole i j) => if j = 0 then none else wholeItem? (i % j)
  | some (.float x y) => some (float (remainder x y))
  | _ => none

/-- The power of a whole number whose result has 128 bits. -/
def wholePower? (i : Int) (n : Nat) : Option Item :=
  if i.natAbs ≤ 1 then some (int (i.pow (if n = 0 then 0 else 2 - n % 2)))
  else if n ≤ 127 then wholeItem? (i.pow n)
  else none

/-- A number to the power of another one. -/
def power? (a b : Item) : Option Item :=
  match operands? false a b with
  | some (.whole i j) => if 0 ≤ j ∧ j < Int.pow 2 32 then wholePower? i j.toNat else none
  | some (.float x y) => some (float (x ^ y))
  | _ => none

/-- A number with the other sign.  The natural that only its negation fits into
128 bits is left as it is. -/
def negate? : Item → Option Item
  | natural n => if n = Nat.pow 2 127 then some (natural n) else wholeItem? (-n)
  | int i => wholeItem? (-i)
  | float x => some (float (-x))
  | _ => none

/-- Whether a value is contained in a text, a list, or the keys of a mapping.
Nothing is contained in the undefined item and in what is no data. -/
def among? (value : Item) : Item → Option Bool
  | undefined | function _ | routine _ | loop .. => some false
  | text s => some (Text.occurs value.spell s)
  | list items | stream items => some (items.any (·.equal value))
  | map entries => some (find? entries value).isSome
  | _ => none

end Item

/-- The meaning of an operator. -/
def BinaryOp.apply? (op : BinaryOp) (a b : Item) : Option Item :=
  match op with
  | .add => a.add? b
  | .subtract => a.subtract? b
  | .multiply => a.multiply? b
  | .divide => a.divide? b
  | .quotient => a.quotient? b
  | .remainder => a.remainder? b
  | .power => a.power? b
  | .join => some (.text (a.spell ++ b.spell))
  | .equal => some (.bool (a.equal b))
  | .different => some (.bool !(a.equal b))
  | .less => some (.bool (a.order b == .lt))
  | .atMost => some (.bool (a.order b != .gt))
  | .greater => some (.bool (a.order b == .gt))
  | .atLeast => some (.bool (a.order b != .lt))
  | .among => (a.among? b).map .bool
  | .notAmong => (a.among? b).map fun found => .bool !found

end LayeredConfig.Template
