import Overload.Fault

/-!
Trees from objects and back. Both ways every part is made empty at first. The parts that are still
to be filled wait on a stack, the one made last on top.
-/

namespace Overload

/-- A value whose parts are given by what they are to be filled from. -/
inductive Cell (σ β : Type) where
  | value (v : β)
  | list (cells : List (Cell σ β))
  | part (s : σ)

namespace Cell

variable {σ β : Type}

mutual

/-- The parts from left to right. -/
def parts : Cell σ β → List σ
  | .value _ => []
  | .list cs => itemParts cs
  | .part s => [s]
termination_by structural c => c

def itemParts : List (Cell σ β) → List σ
  | [] => []
  | c :: cs => parts c ++ itemParts cs
termination_by structural cs => cs

end

mutual

/-- The cell with references instead of its parts. -/
def refer : Cell σ β → Nat → Cell Nat β
  | .value v, _ => .value v
  | .list cs, next => .list (referItems cs next)
  | .part _, next => .part next
termination_by structural c => c

def referItems : List (Cell σ β) → Nat → List (Cell Nat β)
  | [], _ => []
  | c :: cs, next => refer c next :: referItems cs (next + c.parts.length)
termination_by structural cs => cs

end

mutual

def close (ofList : List β → β) (part : σ → β) : Cell σ β → β
  | .value v => v
  | .list cs => ofList (closeItems ofList part cs)
  | .part s => part s
termination_by structural c => c

def closeItems (ofList : List β → β) (part : σ → β) : List (Cell σ β) → List β
  | [] => []
  | c :: cs => close ofList part c :: closeItems ofList part cs
termination_by structural cs => cs

end

end Cell

abbrev Cells (σ β : Type) := List (String × Cell σ β)

namespace Cells

variable {σ β : Type}

def parts (fs : Cells σ β) : List σ := fs.flatMap fun f => f.2.parts

theorem parts_cons (name : String) (c : Cell σ β) (fs : Cells σ β) :
    parts ((name, c) :: fs) = c.parts ++ fs.parts := rfl

def refer : Cells σ β → Nat → Cells Nat β
  | [], _ => []
  | (name, c) :: fs, next => (name, c.refer next) :: refer fs (next + c.parts.length)

def close (ofList : List β → β) (part : σ → β) (fs : Cells σ β) : List (String × β) :=
  fs.map fun f => (f.1, f.2.close ofList part)

end Cells

def totalSize {α : Type} (size : α → Nat) : List α → Nat
  | [] => 0
  | x :: xs => size x + totalSize size xs

theorem totalSize_append {α : Type} (size : α → Nat) (xs ys : List α) :
    totalSize size (xs ++ ys) = totalSize size xs + totalSize size ys := by
  induction xs with
  | nil => exact (Nat.zero_add _).symm
  | cons x xs ih => rw [List.cons_append, totalSize, ih, totalSize, Nat.add_assoc]

structure Shell (β : Type) where
  kind : β
  fields : Cells Nat β

/-- How parts are filled and what they become. -/
structure Filling (σ β : Type) where
  kind : σ → β
  fields : σ → Except Fault (Cells σ β)
  ofList : List β → β
  make : β → List (String × β) → β
  size : σ → Nat
  size_parts : ∀ s fs, fields s = .ok fs → totalSize size fs.parts < size s

namespace Filling

variable {σ β : Type} (m : Filling σ β)

def shell (s : σ) : Shell β := ⟨m.kind s, []⟩

/-- New parts with their references, the last one on top. -/
def pushed (parts : List σ) (next : Nat) : List (Nat × σ) :=
  ((parts.zipIdx next).map Prod.swap).reverse

theorem totalSize_pushed (size : σ → Nat) (parts : List σ) (next : Nat) :
    totalSize (fun e => size e.2) (pushed parts next) = totalSize size parts := by
  induction parts generalizing next with
  | nil => rfl
  | cons s parts ih =>
    have hpushed : pushed (s :: parts) next = pushed parts (next + 1) ++ [(next, s)] := by
      simp [pushed, List.zipIdx_cons]
    rw [hpushed, totalSize_append, ih, Nat.add_comm]
    rfl

def fill (stack : List (Nat × σ)) (shells : Array (Shell β)) : Except Fault (Array (Shell β)) :=
  match stack with
  | [] => .ok shells
  | (i, s) :: rest =>
    match _h : m.fields s with
    | .error fault => .error fault
    | .ok fs =>
      fill (pushed fs.parts shells.size ++ rest)
        (shells.modify i (fun shell => { shell with fields := fs.refer shells.size }) ++
          (fs.parts.map m.shell).toArray)
termination_by totalSize (fun e => m.size e.2) stack
decreasing_by
  have hlt := m.size_parts s fs _h
  rw [totalSize_append, totalSize_pushed]
  exact Nat.add_lt_add_right hlt _

/-- The parts become values from the last to the first, as those inside a part are made later. -/
def assemble [Inhabited β] (shells : Array (Shell β)) : Array β :=
  shells.foldr (fun shell done => done.push (m.make shell.kind (shell.fields.close m.ofList fun i =>
    done.getD (shells.size - 1 - i) default))) #[]

def run [Inhabited β] (s : σ) : Except Fault β := do
  let shells ← m.fill [(0, s)] #[m.shell s]
  return (m.assemble shells).back?.getD default

end Filling

/-- An object that becomes a node. -/
structure TypedObject where
  entries : List (String × Data)
  kind : Data
  typed : Entries.get? "type" entries = some kind

def TypedObject.size (s : TypedObject) : Nat := (Data.object s.entries).size

namespace Tree

mutual

def cellOf : Data → Cell TypedObject Tree
  | .object es =>
    match h : Entries.get? "type" es with
    | some kind => .part ⟨es, kind, h⟩
    | none => .value (.object es)
  | .list xs => .list (cellsOf xs)
  | d => .value (plain d)
termination_by structural d => d

def cellsOf : List Data → List (Cell TypedObject Tree)
  | [] => []
  | x :: xs => cellOf x :: cellsOf xs
termination_by structural xs => xs

end

/-- Names that no node can have a field of, as all objects have them already. -/
def refusal? (name : String) (value : Data) : Option Fault :=
  if name = "__class__" then some .unsuitable
  else if name = "__weakref__" then some .noAttribute
  else if name = "__dict__" then
    match cellOf value with
    | .value (.object _) => some .noAttribute
    | _ => some .unsuitable
  else none

def fieldCells : List (String × Data) → Except Fault (Cells TypedObject Tree)
  | [] => .ok []
  | (name, x) :: es =>
    if name = "type" then fieldCells es
    else match refusal? name x with
      | some fault => .error fault
      | none => (fieldCells es).map fun fs => (name, cellOf x) :: fs

mutual

theorem totalSize_cellOf : (d : Data) →
    totalSize TypedObject.size (cellOf d).parts ≤ d.size
  | .object es => by
    rw [cellOf]
    split
    · exact Nat.le_refl _
    · exact Nat.zero_le _
  | .list xs => by
    rw [cellOf, Cell.parts, Data.size]
    exact Nat.le_add_left_of_le (totalSize_cellsOf xs)
  | .null | .undefined | .bool _ | .num _ | .str _ => Nat.zero_le _

theorem totalSize_cellsOf : (xs : List Data) →
    totalSize TypedObject.size (Cell.itemParts (cellsOf xs)) ≤ Data.sizeItems xs
  | [] => Nat.le_refl 0
  | x :: xs => by
    rw [cellsOf, Cell.itemParts, totalSize_append, Data.sizeItems]
    exact Nat.add_le_add (totalSize_cellOf x) (totalSize_cellsOf xs)

end

theorem totalSize_fieldCells {es : List (String × Data)} {fs : Cells TypedObject Tree}
    (h : fieldCells es = .ok fs) :
    totalSize TypedObject.size fs.parts ≤ Data.sizeEntries es := by
  induction es generalizing fs with
  | nil =>
    obtain rfl := Except.ok.inj h
    exact Nat.le_refl 0
  | cons e es ih =>
    obtain ⟨name, x⟩ := e
    have hx := totalSize_cellOf x
    rw [fieldCells] at h
    split at h
    · exact Nat.le_trans (ih h) (Nat.le_add_left ..)
    · split at h
      · cases h
      · cases hfs : fieldCells es with
        | error fault =>
          rw [hfs] at h
          cases h
        | ok gs =>
          rw [hfs] at h
          obtain rfl := Except.ok.inj h
          have hgs := ih hfs
          rw [Cells.parts_cons, totalSize_append, Data.sizeEntries]
          omega

/-- Nodes made of objects; their numbers are left open. -/
def reading : Filling TypedObject Tree where
  kind s := plain s.kind
  fields s := fieldCells s.entries
  ofList := .list
  make kind fields := .node 0 kind fields
  size := TypedObject.size
  size_parts s fs h := by
    have := totalSize_fieldCells h
    rw [TypedObject.size, Data.size]
    omega

mutual

/-- The tree with its nodes numbered in the order of reading. -/
def number : Tree → Nat → Tree × Nat
  | .node _ kind fields, next =>
    let r := numberFields fields (next + 1)
    (.node next kind r.1, r.2)
  | .list xs, next =>
    let r := numberItems xs next
    (.list r.1, r.2)
  | t, next => (t, next)
termination_by structural t => t

def numberItems : List Tree → Nat → List Tree × Nat
  | [], next => ([], next)
  | x :: xs, next =>
    let r := number x next
    let s := numberItems xs r.2
    (r.1 :: s.1, s.2)
termination_by structural xs => xs

def numberFields : List (String × Tree) → Nat → List (String × Tree) × Nat
  | [], next => ([], next)
  | (name, x) :: rest, next =>
    let r := number x next
    let s := numberFields rest r.2
    ((name, r.1) :: s.1, s.2)
termination_by structural fs => fs

end

def load (d : Data) (next : Nat) : Except Fault (Tree × Nat) :=
  match cellOf d with
  | .part s => do return number (← reading.run s) next
  | _ => .error .missingKind

mutual

def cellOfTree : Tree → Cell Node Data
  | .node id kind fields => .part ⟨id, kind, fields⟩
  | .list xs => .list (cellsOfTrees xs)
  | .object es => .value (.object es)
  | .null => .value .null
  | .undefined => .value .undefined
  | .bool b => .value (.bool b)
  | .num n => .value (.num n)
  | .str s => .value (.str s)
termination_by structural t => t

def cellsOfTrees : List Tree → List (Cell Node Data)
  | [] => []
  | x :: xs => cellOfTree x :: cellsOfTrees xs
termination_by structural xs => xs

end

mutual

theorem totalSize_cellOfTree : (t : Tree) →
    totalSize (fun n => n.toTree.size) (cellOfTree t).parts ≤ t.size
  | .node _ _ _ => Nat.le_refl _
  | .list xs => by
    rw [cellOfTree, Cell.parts, size]
    exact Nat.le_add_left_of_le (totalSize_cellsOfTrees xs)
  | .null | .undefined | .bool _ | .num _ | .str _ | .object _ => Nat.zero_le _

theorem totalSize_cellsOfTrees : (xs : List Tree) →
    totalSize (fun n => n.toTree.size) (Cell.itemParts (cellsOfTrees xs)) ≤ sizeItems xs
  | [] => Nat.le_refl 0
  | x :: xs => by
    rw [cellsOfTrees, Cell.itemParts, totalSize_append, sizeItems]
    exact Nat.add_le_add (totalSize_cellOfTree x) (totalSize_cellsOfTrees xs)

end

theorem totalSize_cellsOfFields (fs : List (String × Tree)) :
    totalSize (fun n => n.toTree.size) (Cells.parts (fs.map fun f => (f.1, cellOfTree f.2))) ≤
      sizeFields fs := by
  induction fs with
  | nil => exact Nat.le_refl 0
  | cons f fs ih =>
    have hf := totalSize_cellOfTree f.2
    rw [List.map_cons, Cells.parts_cons, totalSize_append, sizeFields]
    omega

/-- Objects made of nodes. A field can hide the operation that lists the fields. -/
def writing : Filling Node Data where
  kind n := n.kind.toData
  fields n :=
    if Entries.has "fields" n.fields then .error .unsuitable
    else .ok (n.fields.map fun f => (f.1, cellOfTree f.2))
  ofList := .list
  make kind fields := .object (("type", kind) :: fields)
  size n := n.toTree.size
  size_parts n fs h := by
    split at h
    · cases h
    · obtain rfl := Except.ok.inj h
      have := totalSize_cellsOfFields n.fields
      rw [Node.toTree, size]
      omega

end Tree

def Node.dump (n : Node) : Except Fault Data :=
  if Entries.has "to_dict" n.fields then .error .unsuitable else Tree.writing.run n

end Overload
