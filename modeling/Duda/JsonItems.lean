import Duda.CString
import Duda.CType
import Duda.LinkedChain

/-!
# The items of a JSON text in memory

`cJSON.c` keeps the children of an array or an object in a chain of items, which is
walked, cut and joined by its pointers. Over it stands a forest: which items there are,
and the list of children of each. As long as an item is added only where it is in no
chain yet, never below itself and never under its own old name, every function does to the
forest what its name says, no freed item is touched, and every item is freed with the tree it
is in.
-/

set_option autoImplicit false

namespace Duda.JsonItems
open Duda.CString Duda.CType Duda.LinkedChain

section Memory

/-- `struct cJSON`, as far as the functions on chains use it. -/
@[ext]
structure Node where
  next : Option ℕ
  prev : Option ℕ
  child : Option ℕ
  isReference : Bool
  string : Option Text

/-- The items in memory, and how many were allocated. No address is used twice. -/
structure Heap where
  count : ℕ
  cells : ℕ → Option Node

/-- A string that a call is given: memory of the program, or the name of an item. -/
inductive StringArg where
  | text (t : Text)
  | nameOf (x : ℕ)
  deriving DecidableEq

namespace Heap

/-- What a string points to. The name of an item may be the null pointer. -/
def load (h : Heap) : StringArg → Option (Option Text)
  | .text t => some (some t)
  | .nameOf x => (h.cells x).map Node.string

def next (h : Heap) (x : ℕ) : Option ℕ := (h.cells x).bind Node.next

def prev (h : Heap) (x : ℕ) : Option ℕ := (h.cells x).bind Node.prev

def modify (h : Heap) (x : ℕ) (f : Node → Node) : Option Heap :=
  (h.cells x).map fun n => { h with cells := Function.update h.cells x (some (f n)) }

/-- A write through a pointer that was tested. -/
def modifyAt (h : Heap) (p : Option ℕ) (f : Node → Node) : Option Heap :=
  match p with
  | none => some h
  | some x => h.modify x f

def free (h : Heap) (x : ℕ) : Option Heap :=
  (h.cells x).map fun _ => { h with cells := Function.update h.cells x none }

def alloc (h : Heap) (n : Node) : Heap :=
  ⟨h.count+1,Function.update h.cells h.count (some n)⟩

end Heap

/-- `cJSON_New_Item`. -/
def newItem : Node := ⟨none,none,none,false,none⟩

/-- `while (c && which>0) c=c->next,which--;`. -/
def walk (h : Heap) : ℕ → Option ℕ → Option (Option ℕ)
  | 0, p => some p
  | _+1, none => some none
  | k+1, some x => (h.cells x).bind fun n => walk h k n.next

/-- `while (c && c->next) c=c->next;`. -/
def lastLoop (h : Heap) : ℕ → ℕ → Option ℕ
  | 0, _ => none
  | k+1, x => (h.cells x).bind fun n =>
      match n.next with
      | none => some x
      | some y => lastLoop h k y

/-- `cJSON_GetArraySize`. -/
def sizeLoop (h : Heap) : ℕ → Option ℕ → Option ℕ
  | 0, _ => none
  | _+1, none => some 0
  | k+1, some x => (h.cells x).bind fun n => (sizeLoop h k n.next).map (·+1)

def getArraySize (h : Heap) (array : ℕ) : Option ℕ :=
  (h.cells array).bind fun n => sizeLoop h (h.count+1) n.child

/-- `cJSON_GetArrayItem`. -/
def getArrayItem (h : Heap) (array : ℕ) (item : ℤ) : Option (Option ℕ) :=
  (h.cells array).bind fun n => walk h item.toNat n.child

/-- `suffix_object`. -/
def suffixObject (h : Heap) (prev item : ℕ) : Option Heap :=
  (h.modify prev fun n => { n with next := some item }).bind fun h =>
    h.modify item fun n => { n with prev := some prev }

/-- `cJSON_AddItemToArray`. -/
def addItemToArray (h : Heap) (array item : ℕ) : Option Heap :=
  (h.cells array).bind fun n =>
    match n.child with
    | none => h.modify array fun n => { n with child := some item }
    | some c => (lastLoop h h.count c).bind fun c => suffixObject h c item

/-- `cJSON_strdup`, of a string that must be there. -/
def strdup (h : Heap) (string : StringArg) : Option Text := (h.load string).join

/-- `cJSON_AddItemToObject`. The old name is released before the new one is copied. -/
def addItemToObject (h : Heap) (object : ℕ) (string : StringArg) (item : ℕ) : Option Heap :=
  (h.modify item fun n => { n with string := none }).bind fun h =>
    (strdup h string).bind fun t =>
      (h.modify item fun n => { n with string := some t }).bind fun h =>
        addItemToArray h object item

/-- `create_reference`. -/
def createReference (h : Heap) (item : ℕ) : Option (Heap × ℕ) :=
  (h.cells item).map fun n =>
    (h.alloc { n with string := none, isReference := true, next := none, prev := none },h.count)

/-- `cJSON_AddItemReferenceToArray`. -/
def addItemReferenceToArray (h : Heap) (array item : ℕ) : Option Heap :=
  (createReference h item).bind fun (h,ref) => addItemToArray h array ref

/-- `cJSON_AddItemReferenceToObject`. -/
def addItemReferenceToObject (h : Heap) (object : ℕ) (string : StringArg) (item : ℕ) :
    Option Heap :=
  (createReference h item).bind fun (h,ref) => addItemToObject h object string ref

/-- `cJSON_DetachItemFromArray`. -/
def detachItemFromArray (h : Heap) (array : ℕ) (which : ℤ) : Option (Heap × Option ℕ) :=
  (h.cells array).bind fun a =>
    (walk h which.toNat a.child).bind fun p =>
      match p with
      | none => some (h,none)
      | some c => (h.cells c).bind fun n =>
        (h.modifyAt n.prev fun m => { m with next := n.next }).bind fun h =>
          (h.modifyAt n.next fun m => { m with prev := n.prev }).bind fun h =>
            (if a.child = some c then h.modify array fun m => { m with child := n.next }
              else some h).bind fun h =>
                (h.modify c fun m => { m with prev := none, next := none }).map (·,some c)

/-- `cJSON_Delete`, which frees an item and all items behind it. -/
def deleteLoop : ℕ → Heap → Option ℕ → Option Heap
  | 0, _, _ => none
  | _+1, h, none => some h
  | k+1, h, some c => (h.cells c).bind fun n =>
      (if n.isReference then some h else deleteLoop k h n.child).bind fun h =>
        (h.free c).bind fun h => deleteLoop k h n.next

def cjsonDelete (h : Heap) (p : Option ℕ) : Option Heap := deleteLoop (h.count+1) h p

/-- `cJSON_DeleteItemFromArray`. -/
def deleteItemFromArray (h : Heap) (array : ℕ) (which : ℤ) : Option Heap :=
  (detachItemFromArray h array which).bind fun (h,p) => cjsonDelete h p

/-- `cJSON_ReplaceItemInArray`. -/
def replaceItemInArray (h : Heap) (array : ℕ) (which : ℤ) (newitem : ℕ) : Option Heap :=
  (h.cells array).bind fun a =>
    (walk h which.toNat a.child).bind fun p =>
      match p with
      | none => some h
      | some c => (h.cells c).bind fun n =>
        (h.modify newitem fun m => { m with next := n.next, prev := n.prev }).bind fun h =>
          (h.modifyAt n.next fun m => { m with prev := some newitem }).bind fun h =>
            (if a.child = some c then h.modify array fun m => { m with child := some newitem }
              else n.prev.bind fun x => h.modify x fun m => { m with next := some newitem }).bind
                fun h => (h.modify c fun m => { m with next := none, prev := none }).bind fun h =>
                  cjsonDelete h (some c)

/-- `cJSON_strcasecmp` gives zero. -/
def sameName (s1 s2 : Option Text) : Bool :=
  match s1, s2 with
  | none, s2 => s2.isNone
  | some _, none => false
  | some s, some t => s.bytes.map tolower == t.bytes.map tolower

/-- `while (c && cJSON_strcasecmp(c->string,string)) i++,c=c->next;`, with the item found. -/
def findLoop (h : Heap) (string : StringArg) : ℕ → ℕ → Option ℕ → Option (Option (ℕ × ℕ))
  | 0, _, _ => none
  | _+1, _, none => some none
  | k+1, i, some x => (h.cells x).bind fun n => (h.load string).bind fun t =>
      if sameName n.string t then some (some (i,x)) else findLoop h string k (i+1) n.next

/-- The place of a member of an object. -/
def find (h : Heap) (object : ℕ) (string : StringArg) : Option (Option (ℕ × ℕ)) :=
  (h.cells object).bind fun n => findLoop h string (h.count+1) 0 n.child

/-- `cJSON_GetObjectItem`. -/
def getObjectItem (h : Heap) (object : ℕ) (string : StringArg) : Option (Option ℕ) :=
  (find h object string).map fun p => p.map Prod.snd

/-- `cJSON_DetachItemFromObject`. -/
def detachItemFromObject (h : Heap) (object : ℕ) (string : StringArg) : Option (Heap × Option ℕ) :=
  (find h object string).bind fun p =>
    match p with
    | none => some (h,none)
    | some (i,_) => detachItemFromArray h object i

/-- `cJSON_DeleteItemFromObject`. -/
def deleteItemFromObject (h : Heap) (object : ℕ) (string : StringArg) : Option Heap :=
  (detachItemFromObject h object string).bind fun (h,p) => cjsonDelete h p

/-- `cJSON_ReplaceItemInObject`. -/
def replaceItemInObject (h : Heap) (object : ℕ) (string : StringArg) (newitem : ℕ) :
    Option Heap :=
  (find h object string).bind fun p =>
    match p with
    | none => some h
    | some (i,_) => (strdup h string).bind fun t =>
        (h.modify newitem fun n => { n with string := some t }).bind fun h =>
          replaceItemInArray h object i newitem

/-- The calls of a program. -/
inductive Op where
  | create
  | add (array item : ℕ)
  | addNamed (object : ℕ) (string : StringArg) (item : ℕ)
  | addReference (array item : ℕ)
  | addNamedReference (object : ℕ) (string : StringArg) (item : ℕ)
  | size (array : ℕ)
  | get (array : ℕ) (item : ℤ)
  | getNamed (object : ℕ) (string : StringArg)
  | detach (array : ℕ) (which : ℤ)
  | detachNamed (object : ℕ) (string : StringArg)
  | deleteAt (array : ℕ) (which : ℤ)
  | deleteNamed (object : ℕ) (string : StringArg)
  | replace (array : ℕ) (which : ℤ) (newitem : ℕ)
  | replaceNamed (object : ℕ) (string : StringArg) (newitem : ℕ)
  | delete (item : ℕ)

/-- What a call returns. -/
inductive Output where
  | done
  | pointer (p : Option ℕ)
  | number (n : ℕ)

def step (h : Heap) : Op → Option (Heap × Output)
  | .create => some (h.alloc newItem,.pointer (some h.count))
  | .add array item => (addItemToArray h array item).map (·,.done)
  | .addNamed object string item => (addItemToObject h object string item).map (·,.done)
  | .addReference array item => (addItemReferenceToArray h array item).map (·,.done)
  | .addNamedReference object string item =>
    (addItemReferenceToObject h object string item).map (·,.done)
  | .size array => (getArraySize h array).map fun n => (h,.number n)
  | .get array item => (getArrayItem h array item).map fun p => (h,.pointer p)
  | .getNamed object string => (getObjectItem h object string).map fun p => (h,.pointer p)
  | .detach array which => (detachItemFromArray h array which).map fun (h,p) => (h,.pointer p)
  | .detachNamed object string =>
    (detachItemFromObject h object string).map fun (h,p) => (h,.pointer p)
  | .deleteAt array which => (deleteItemFromArray h array which).map (·,.done)
  | .deleteNamed object string => (deleteItemFromObject h object string).map (·,.done)
  | .replace array which newitem => (replaceItemInArray h array which newitem).map (·,.done)
  | .replaceNamed object string newitem =>
    (replaceItemInObject h object string newitem).map (·,.done)
  | .delete item => (cjsonDelete h (some item)).map (·,.done)

def run : Heap → List Op → Option (Heap × List Output)
  | h, [] => some (h,[])
  | h, op::ops => (step h op).bind fun (h,out) => (run h ops).map fun (h,outs) => (h,out::outs)

def emptyHeap : Heap := ⟨0,fun _ => none⟩

def Heap.map (h : Heap) (g : ℕ → Node → Node) : Heap :=
  { h with cells := fun x => (h.cells x).map (g x) }

open Classical in
noncomputable def Heap.without (h : Heap) (S : Set ℕ) : Heap :=
  { h with cells := fun x => if x ∈ S then none else h.cells x }

end Memory

section Forest

/-- The items as a forest. -/
structure Items where
  count : ℕ
  live : Set ℕ
  reference : ℕ → Bool
  name : ℕ → Option Text
  kids : ℕ → List ℕ

namespace Items

structure Sound (s : Items) : Prop where
  inside : ∀ x ∈ s.live, x < s.count
  kid : ∀ a x, x ∈ s.kids a → x ∈ s.live
  dead : ∀ a, a ∉ s.live → s.kids a = []
  bare : ∀ a, s.reference a = true → s.kids a = []
  forest : Forest s.kids

def Root (s : Items) (x : ℕ) : Prop := x ∈ s.live ∧ ∀ a, x ∉ s.kids a

def below (s : Items) (xs : List ℕ) : Set ℕ := { z | ∃ x ∈ xs, Under s.kids x z }

def setKids (s : Items) (a : ℕ) (xs : List ℕ) : Items :=
  { s with kids := Function.update s.kids a xs }

open Classical in
noncomputable def remove (s : Items) (c : ℕ) : Items :=
  { s with
    live := s.live \ s.below [c]
    kids := fun a => if a ∈ s.below [c] then [] else s.kids a }

def alloc (s : Items) (reference : Bool) : Items :=
  { s with
    count := s.count+1
    live := insert s.count s.live
    reference := Function.update s.reference s.count reference
    name := Function.update s.name s.count none }

def rename (s : Items) (x : ℕ) (string : Option Text) : Items :=
  { s with name := Function.update s.name x string }

def load (s : Items) : StringArg → Option Text
  | .text t => some t
  | .nameOf x => s.name x

def member (s : Items) (string : Option Text) : ℕ → List ℕ → Option (ℕ × ℕ)
  | _, [] => none
  | i, x::xs => if sameName (s.name x) string then some (i,x) else s.member string (i+1) xs

/-- A child is taken out, and its tree deleted. -/
noncomputable def cut (s : Items) (a i c : ℕ) : Items :=
  (s.setKids a ((s.kids a).eraseIdx i)).remove c

/-- A child is exchanged, and its tree deleted. -/
noncomputable def swap (s : Items) (a i c y : ℕ) : Items :=
  (s.setKids a ((s.kids a).set i y)).remove c

/-- What the calls mean. -/
noncomputable def step (s : Items) : Op → Items × Output
  | .create => (s.alloc false,.pointer (some s.count))
  | .add a x => (s.setKids a (s.kids a++[x]),.done)
  | .addNamed o string x => ((s.rename x (s.load string)).setKids o (s.kids o++[x]),.done)
  | .addReference a _ => ((s.alloc true).setKids a (s.kids a++[s.count]),.done)
  | .addNamedReference o string _ =>
    (((s.alloc true).rename s.count (s.load string)).setKids o (s.kids o++[s.count]),.done)
  | .size a => (s,.number (s.kids a).length)
  | .get a i => (s,.pointer (s.kids a)[i.toNat]?)
  | .getNamed o string => (s,.pointer ((s.member (s.load string) 0 (s.kids o)).map Prod.snd))
  | .detach a i =>
    (s.setKids a ((s.kids a).eraseIdx i.toNat),.pointer (s.kids a)[i.toNat]?)
  | .detachNamed o string =>
    match s.member (s.load string) 0 (s.kids o) with
    | none => (s,.pointer none)
    | some (i,x) => (s.setKids o ((s.kids o).eraseIdx i),.pointer (some x))
  | .deleteAt a i =>
    match (s.kids a)[i.toNat]? with
    | none => (s,.done)
    | some c => (s.cut a i.toNat c,.done)
  | .deleteNamed o string =>
    match s.member (s.load string) 0 (s.kids o) with
    | none => (s,.done)
    | some (i,c) => (s.cut o i c,.done)
  | .replace a i y =>
    match (s.kids a)[i.toNat]? with
    | none => (s,.done)
    | some c => (s.swap a i.toNat c y,.done)
  | .replaceNamed o string y =>
    match s.member (s.load string) 0 (s.kids o) with
    | none => (s,.done)
    | some (i,c) => ((s.rename y (s.load string)).swap o i c y,.done)
  | .delete c => (s.remove c,.done)

/-- An item whose children are its own. -/
def Holder (s : Items) (a : ℕ) : Prop := a ∈ s.live ∧ s.reference a = false

/-- An item that may become a child of `a`. -/
def Addable (s : Items) (a x : ℕ) : Prop := s.Root x ∧ ¬Under s.kids x a

/-- A string that is not freed. -/
def Given (s : Items) : StringArg → Prop
  | .text _ => True
  | .nameOf x => x ∈ s.live

/-- A string that can be copied. -/
def Copied (s : Items) (string : StringArg) : Prop := s.Given string ∧ s.load string ≠ none

/-- What a program has to keep to. An item is not given its own name again, since that is
released first. -/
def Legal (s : Items) : Op → Prop
  | .create => True
  | .add a x | .replace a _ x => s.Holder a ∧ s.Addable a x
  | .addNamed a string x =>
    (s.Holder a ∧ s.Addable a x) ∧ s.Copied string ∧ string ≠ .nameOf x
  | .replaceNamed a string x => (s.Holder a ∧ s.Addable a x) ∧ s.Copied string
  | .addReference a x => s.Holder a ∧ x ∈ s.live
  | .addNamedReference a string x => (s.Holder a ∧ x ∈ s.live) ∧ s.Copied string
  | .size a | .get a _ | .detach a _ | .deleteAt a _ => s.Holder a
  | .getNamed a string | .detachNamed a string | .deleteNamed a string =>
    s.Holder a ∧ s.Given string
  | .delete c => s.Root c

noncomputable def run : Items → List Op → Items × List Output
  | s, [] => (s,[])
  | s, op::ops => ((run (s.step op).1 ops).1,(s.step op).2::(run (s.step op).1 ops).2)

def LegalRun : Items → List Op → Prop
  | _, [] => True
  | s, op::ops => s.Legal op ∧ LegalRun (s.step op).1 ops

end Items

def noItems : Items := ⟨0,∅,fun _ => false,fun _ => none,fun _ => []⟩

end Forest

end Duda.JsonItems
