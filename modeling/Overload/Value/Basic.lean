import Overload.Fault
import Overload.Operator
import Overload.Text.Spelling

/-! Values that programs compute with. -/

namespace Overload

mutual

inductive Value where
  | undefined
  | null
  | bool (b : Bool)
  | num (n : Num)
  | str (s : Spelling)
  | list (ref : Nat) (items : List Value)
  | tuple (ref : Nat) (items : List Value)
  | dict (ref : Nat) (entries : List (Value × Value))
  | function (ref : Nat) (name : Option String) (isPlain : Bool) (code : Code)
  | type (c : Class)
  | object (ref : Nat) (c : Class) (entries : List (Value × Value))
      (attributes : List (String × Value))

inductive Class where
  | builtin (name : String)
  | user (ref : Nat) (name : String) (bases : List Class) (slots : List (String × Slot))
      (callable : Bool)

inductive Slot where
  | value (v : Value)
  | classMethod (function : Value)
  | static (function : Value)

inductive Code where
  | idle
  | member (hasReceiver : Bool) (name : String) (reply : Reply)
  | action (m : Member)
  | unaryDispatch
  | binaryDispatch
  | importer (name : String)
  | collect
  | infixed (token : String)
  | prefixed (token : String)
  | length

inductive Reply where
  | ret (v : Value)
  | self
  | other
  | decline
  | raise (message : String)
  | pair (tag : Value)
  | diff (field : String)
  | apply (field : String)
  | actionText
  | binary (token : String) (v : Value)
  | unary (token : String)

end

instance : Inhabited Value := ⟨.undefined⟩

instance : Inhabited Reply := ⟨.decline⟩

instance : Inhabited Class := ⟨.builtin "object"⟩

namespace Class

def name : Class → String
  | .builtin n => n
  | .user _ n _ _ _ => n

def same : Class → Class → Bool
  | .builtin m, .builtin n => m == n
  | .user r _ _ _ _, .user s _ _ _ _ => r == s
  | _, _ => false

mutual

def derives (c d : Class) : Bool :=
  match c with
  | .builtin n => Class.same (.builtin n) d || Class.same (.builtin "object") d
  | .user r n bases slots callable =>
    Class.same (.user r n bases slots callable) d || derivesAny bases d ||
      Class.same (.builtin "object") d
termination_by structural c

def derivesAny (cs : List Class) (d : Class) : Bool :=
  match cs with
  | [] => false
  | c :: rest => derives c d || derivesAny rest d
termination_by structural cs

end

def isAmong (c : Class) (cs : List Class) : Bool := cs.any c.same

/-- The first of the heads that stands behind no other class. -/
def first? (orders : List (List Class)) : Option Class :=
  (orders.filterMap List.head?).find? fun c => orders.all fun o => !c.isAmong o.tail

/-- One order of classes that keeps all the given ones, as far as there is one. -/
def mergeOrders : Nat → List (List Class) → List Class
  | 0, _ => []
  | fuel + 1, orders =>
    match first? orders with
    | none => []
    | some c => c :: mergeOrders fuel (orders.map (List.filter fun d => !c.same d))

mutual

/-- The order in which a class and its bases are asked for a slot: no class before one that is
derived from it, and the bases of each in their order. -/
def order : Class → List Class
  | .builtin n => [.builtin n]
  | .user r n bases slots callable =>
    let given := orders bases ++ [bases]
    .user r n bases slots callable :: mergeOrders given.flatten.length given
termination_by structural c => c

def orders : List Class → List (List Class)
  | [] => []
  | c :: rest => order c :: orders rest
termination_by structural cs => cs

end

def ownSlot? (name : String) : Class → Option Slot
  | .builtin _ => none
  | .user _ _ _ slots _ => Entries.get? name slots

def slot? (name : String) (c : Class) : Option Slot := c.order.findSome? (ownSlot? name)

mutual

def hasCall : Class → Bool
  | .builtin _ => false
  | .user _ _ bases _ callable => callable || hasCallAmong bases
termination_by structural c => c

def hasCallAmong : List Class → Bool
  | [] => false
  | c :: rest => hasCall c || hasCallAmong rest
termination_by structural cs => cs

end

def dictionary : Class := .builtin "dict"

end Class

namespace Value

def int (n : Int) : Value := .num (.int n)

def isNullish : Value → Bool
  | .undefined => true
  | .null => true
  | _ => false

def isPrimitive : Value → Bool
  | .undefined | .null | .bool _ | .num _ | .str _ => true
  | _ => false

def isNumber : Value → Bool
  | .num _ => true
  | _ => false

def isCallable : Value → Bool
  | .function _ _ _ _ => true
  | .type _ => true
  | .object _ c _ _ => c.hasCall
  | _ => false

def entries? : Value → Option (List (Value × Value))
  | .dict _ es => some es
  | .object _ c es _ => if c.derives Class.dictionary then some es else none
  | _ => none

def identical : Value → Value → Bool
  | .list r _, .list s _ => r == s
  | .tuple r xs, .tuple s ys => r == s || xs.isEmpty && ys.isEmpty
  | .dict r _, .dict s _ => r == s
  | .function r m _ _, .function s n _ _ => r == s && m == n
  | .type c, .type d => c.same d
  | .object r _ _ _, .object s _ _ _ => r == s
  | _, _ => false

def number? : Value → Option Num
  | .bool b => some (.int (if b then 1 else 0))
  | .num n => some n
  | _ => none

mutual

def sameKey : Value → Value → Bool
  | .undefined, .undefined => true
  | .null, .null => true
  | .str s, .str t => s == t
  | .tuple _ xs, .tuple _ ys => sameKeys xs ys
  | .bool b, v => (v.number?.map (Num.int (if b then 1 else 0)).equal).getD false
  | .num n, v => (v.number?.map n.equal).getD false
  | .list r _, .list s _ => r == s
  | .dict r _, .dict s _ => r == s
  | .function r m _ _, .function s n _ _ => r == s && m == n
  | .type c, .type d => c.same d
  | .object r _ _ _, .object s _ _ _ => r == s
  | _, _ => false
termination_by structural v => v

def sameKeys : List Value → List Value → Bool
  | [], [] => true
  | x :: xs, y :: ys => sameKey x y && sameKeys xs ys
  | _, _ => false
termination_by structural xs => xs

end

mutual

def isKey : Value → Bool
  | .list _ _ => false
  | .dict _ _ => false
  | .tuple _ xs => areKeys xs
  | .object _ c _ _ => !c.derives Class.dictionary
  | _ => true
termination_by structural v => v

def areKeys : List Value → Bool
  | [] => true
  | x :: xs => isKey x && areKeys xs
termination_by structural xs => xs

end

def valueAt? (key : Value) : List (Value × Value) → Option Value
  | [] => none
  | (k, v) :: rest => if sameKey k key then some v else valueAt? key rest

def setEntry (key value : Value) : List (Value × Value) → List (Value × Value)
  | [] => [(key, value)]
  | (k, v) :: rest =>
    if sameKey k key then (k, value) :: rest else (k, v) :: setEntry key value rest

def ofPairs (pairs : List (Value × Value)) : List (Value × Value) :=
  pairs.foldl (fun es p => setEntry p.1 p.2 es) []

end Value

end Overload
