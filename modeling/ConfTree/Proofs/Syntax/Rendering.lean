import ConfTree.Proofs.Syntax.Numeral
import ConfTree.Proofs.Syntax.WellFormed

/-!
# Expressions written out

Every well-formed tree can be written: operands, items, keys, arguments and the expressions of clauses
in round brackets, texts by the escapes of their units, numbers by their digits.
-/
namespace ConfTree

/-- A text in round brackets. -/
def grouped (t : List CodeUnit) : List CodeUnit := CodeUnit.ofChar '(' :: (t ++ [CodeUnit.ofChar ')'])

/-- Parts with commas between them. -/
def listed : List (List CodeUnit) → List CodeUnit
  | [] => []
  | part :: rest => part ++ rest.flatMap (CodeUnit.ofChar ',' :: ·)

/-- A literal; a number by the digits of the integer that it is. -/
def Literal.written : Literal → List CodeUnit
  | .null => ("null" : Text).units
  | .bool true => ("true" : Text).units
  | .bool false => ("false" : Text).units
  | .number x => (Text.ofNat (x.int?.getD 0).toNat).units
  | .text t => CodeUnit.ofChar '"' :: (t.units.flatMap Text.Quote.hexEscape ++ [CodeUnit.ofChar '"'])

def Collection.opening : Collection → CodeUnit
  | .list => '['
  | .set => '{'

def Collection.closing : Collection → CodeUnit
  | .list => ']'
  | .set => '}'

mutual

/-- An expression, everything in it grouped. -/
def Expr.written : Expr → List CodeUnit
  | .literal value => value.written
  | .name name => name.units
  | .list items => CodeUnit.ofChar '[' :: (listed (itemsWritten items) ++ [CodeUnit.ofChar ']'])
  | .set items => CodeUnit.ofChar '{' :: (listed (itemsWritten items) ++ [CodeUnit.ofChar '}'])
  | .mapping entries => CodeUnit.ofChar '{' :: (listed (entriesWritten entries) ++ [CodeUnit.ofChar '}'])
  | .comprehension kind element clauses =>
    kind.opening :: (grouped element.written ++ clausesWritten clauses ++ [kind.closing])
  | .mappingComprehension key value clauses =>
    CodeUnit.ofChar '{' :: (grouped key.written ++ CodeUnit.ofChar ':' :: grouped value.written ++
      clausesWritten clauses ++ [CodeUnit.ofChar '}'])
  | .unary op argument => op.sign.units ++ grouped argument.written
  | .binary op left right => grouped left.written ++ op.sign.units ++ grouped right.written
  | .logical op left right => grouped left.written ++ op.sign.units ++ grouped right.written
  | .compare first rest => grouped first.written ++ linksWritten rest
  | .conditional test consequent alternate =>
    grouped test.written ++ CodeUnit.ofChar '?' :: grouped consequent.written ++
      CodeUnit.ofChar ':' :: grouped alternate.written
  | .call callee args =>
    grouped callee.written ++ CodeUnit.ofChar '(' :: (listed (argumentsWritten args) ++ [CodeUnit.ofChar ')'])
  | .index object index =>
    grouped object.written ++ CodeUnit.ofChar '[' :: (grouped index.written ++ [CodeUnit.ofChar ']'])
  | .slice object start stop step =>
    grouped object.written ++ CodeUnit.ofChar '[' :: (boundWritten start ++ CodeUnit.ofChar ':' :: boundWritten stop ++
      CodeUnit.ofChar ':' :: boundWritten step ++ [CodeUnit.ofChar ']'])

def boundWritten : Option Expr → List CodeUnit
  | none => []
  | some e => grouped e.written

def linksWritten : List (CompareOp × Expr) → List CodeUnit
  | [] => []
  | (op,e) :: rest => op.sign.units ++ grouped e.written ++ linksWritten rest

def Item.written : Item → List CodeUnit
  | .spread e => ("..." : Text).units ++ grouped e.written
  | .one e => grouped e.written

def itemsWritten : List Item → List (List CodeUnit)
  | [] => []
  | i :: rest => i.written :: itemsWritten rest

def Entry.written : Entry → List CodeUnit
  | .spread e => ("..." : Text).units ++ grouped e.written
  | .pair key value => grouped key.written ++ CodeUnit.ofChar ':' :: grouped value.written

def entriesWritten : List Entry → List (List CodeUnit)
  | [] => []
  | entry :: rest => entry.written :: entriesWritten rest

def Clause.written : Clause → List CodeUnit
  | .each targets iterable =>
    (" for " : Text).units ++ listed (targets.map Text.units) ++ (" in " : Text).units ++ grouped iterable.written
  | .when test => (" if " : Text).units ++ grouped test.written

def clausesWritten : List Clause → List CodeUnit
  | [] => []
  | clause :: rest => clause.written ++ clausesWritten rest

def Argument.written : Argument → List CodeUnit
  | .positional e => grouped e.written
  | .keyword name e => name.units ++ CodeUnit.ofChar '=' :: grouped e.written
  | .spread e => ("..." : Text).units ++ grouped e.written

def argumentsWritten : List Argument → List (List CodeUnit)
  | [] => []
  | argument :: rest => argument.written :: argumentsWritten rest

end

attribute [local simp] Expr.written Item.written Entry.written Clause.written Argument.written

/-- The text of an expression, everything in it in brackets. -/
def Expr.rendering (e : Expr) : Text := ⟨e.written⟩

/-! ## Parts -/

def Item.parts : Item → List Expr
  | .spread e => [e]
  | .one e => [e]

def Entry.parts : Entry → List Expr
  | .spread e => [e]
  | .pair key value => [key,value]

def Clause.parts : Clause → List Expr
  | .each _ iterable => [iterable]
  | .when test => [test]

def Argument.parts : Argument → List Expr
  | .positional e => [e]
  | .keyword _ e => [e]
  | .spread e => [e]

/-- The expressions that an expression is put together from. -/
def Expr.parts : Expr → List Expr
  | .literal _ => []
  | .name _ => []
  | .list items => items.flatMap Item.parts
  | .set items => items.flatMap Item.parts
  | .mapping entries => entries.flatMap Entry.parts
  | .comprehension _ element clauses => element :: clauses.flatMap Clause.parts
  | .mappingComprehension key value clauses => key :: value :: clauses.flatMap Clause.parts
  | .unary _ argument => [argument]
  | .binary _ left right => [left,right]
  | .logical _ left right => [left,right]
  | .compare first rest => first :: rest.map Prod.snd
  | .conditional test consequent alternate => [test,consequent,alternate]
  | .call callee args => callee :: args.flatMap Argument.parts
  | .index object i => [object,i]
  | .slice object start stop step => object :: (start.toList ++ stop.toList ++ step.toList)

/-- An expression occurs in itself and in whatever it is a part of. -/
inductive Expr.Occurs (x : Expr) : Expr → Prop
  | self : Occurs x x
  | part {p e : Expr} : p ∈ e.parts → Occurs x p → Occurs x e

theorem Expr.occurs_iff {x e : Expr} : Expr.Occurs x e ↔ x = e ∨ ∃ p ∈ e.parts, Expr.Occurs x p := by
  constructor
  · rintro (_ | ⟨listed,occurs⟩)
    · exact .inl rfl
    · exact .inr ⟨_,listed,occurs⟩
  · rintro (rfl | ⟨p,listed,occurs⟩)
    · exact .self
    · exact .part listed occurs

@[simp] theorem itemsWritten_eq (items : List Item) : itemsWritten items = items.map Item.written := by
  induction items with
  | nil => rfl
  | cons i rest ih => rw [itemsWritten,ih,List.map_cons]

@[simp] theorem entriesWritten_eq (entries : List Entry) : entriesWritten entries = entries.map Entry.written := by
  induction entries with
  | nil => rfl
  | cons entry rest ih => rw [entriesWritten,ih,List.map_cons]

@[simp] theorem argumentsWritten_eq (args : List Argument) : argumentsWritten args = args.map Argument.written := by
  induction args with
  | nil => rfl
  | cons a rest ih => rw [argumentsWritten,ih,List.map_cons]

@[simp] theorem clausesWritten_eq (cs : List Clause) : clausesWritten cs = cs.flatMap Clause.written := by
  induction cs with
  | nil => rfl
  | cons c rest ih => rw [clausesWritten,ih,List.flatMap_cons]

/-- An operator and its right operand. -/
def linkWritten (link : CompareOp × Expr) : List CodeUnit := link.1.sign.units ++ grouped link.2.written

@[simp] theorem linksWritten_eq (links : List (CompareOp × Expr)) : linksWritten links = links.flatMap linkWritten := by
  induction links with
  | nil => rfl
  | cons link rest ih => rw [linksWritten,ih,List.flatMap_cons]; rfl

theorem isWellFormed_of_mem_parts {p e : Expr} (h : e.isWellFormed) (hp : p ∈ e.parts) : p.isWellFormed := by
  have items {items : List Item} (h : items.all Item.isWellFormed) (hp : p ∈ items.flatMap Item.parts) :
      p.isWellFormed := by
    obtain ⟨i,hi,hp⟩ := List.mem_flatMap.mp hp
    have := List.all_eq_true.mp h i hi
    cases i <;> simp_all [Item.isWellFormed,Item.parts]
  have clauses {cs : List Clause} (h : cs.all Clause.isWellFormed) (hp : p ∈ cs.flatMap Clause.parts) :
      p.isWellFormed := by
    obtain ⟨c,hc,hp⟩ := List.mem_flatMap.mp hp
    have := List.all_eq_true.mp h c hc
    cases c <;> simp_all [Clause.isWellFormed,Clause.parts]
  have bounds {o : Option Expr} (h : o.all Expr.isWellFormed) (hp : p ∈ o.toList) : p.isWellFormed := by
    cases o <;> simp_all
  cases e with
  | literal | name => cases hp
  | list => rw [Expr.isWellFormed,itemsWellFormed_eq] at h; exact items h hp
  | set => simp only [Expr.isWellFormed,itemsWellFormed_eq,Bool.and_eq_true] at h; exact items h.2 hp
  | mapping entries =>
    simp only [Expr.isWellFormed,entriesWellFormed_eq,List.all_eq_true] at h
    obtain ⟨entry,he,hp⟩ := List.mem_flatMap.mp hp
    have := h entry he
    cases entry with
    | spread => simp_all [Entry.isWellFormed,Entry.parts]
    | pair => simp_all [Entry.isWellFormed,Entry.parts]; rcases hp with rfl | rfl <;> simp_all
  | comprehension =>
    simp only [Expr.isWellFormed,clausesWellFormed_eq,Bool.and_eq_true] at h
    rcases List.mem_cons.mp hp with rfl | hp
    · exact h.1.1
    · exact clauses h.2 hp
  | mappingComprehension =>
    simp only [Expr.isWellFormed,clausesWellFormed_eq,Bool.and_eq_true] at h
    rcases List.mem_cons.mp hp with rfl | hp
    · exact h.1.1.1
    · rcases List.mem_cons.mp hp with rfl | hp
      · exact h.1.1.2
      · exact clauses h.2 hp
  | unary => simp_all [Expr.isWellFormed,Expr.parts]
  | binary | logical => simp_all [Expr.isWellFormed,Expr.parts]; rcases hp with rfl | rfl <;> simp_all
  | compare first rest =>
    simp only [Expr.isWellFormed,linksWellFormed_eq,Bool.and_eq_true,List.all_eq_true] at h
    rcases List.mem_cons.mp hp with rfl | hp
    · exact h.1.1
    · obtain ⟨link,hl,rfl⟩ := List.mem_map.mp hp
      exact h.2 link hl
  | conditional => simp_all [Expr.isWellFormed,Expr.parts]; rcases hp with rfl | rfl | rfl <;> simp_all
  | call callee args =>
    simp only [Expr.isWellFormed,argumentsWellFormed_eq,Bool.and_eq_true,List.all_eq_true] at h
    rcases List.mem_cons.mp hp with rfl | hp
    · exact h.1
    · obtain ⟨a,ha,hp⟩ := List.mem_flatMap.mp hp
      have := h.2 a ha
      cases a <;> simp_all [Argument.isWellFormed,Argument.parts]
  | index => simp_all [Expr.isWellFormed,Expr.parts]; rcases hp with rfl | rfl <;> simp_all
  | slice =>
    simp only [Expr.isWellFormed,boundWellFormed_eq,Bool.and_eq_true] at h
    simp only [Expr.parts,List.mem_cons,List.mem_append] at hp
    rcases hp with rfl | (hp | hp) | hp
    · exact h.1.1.1
    · exact bounds h.1.1.2 hp
    · exact bounds h.1.2 hp
    · exact bounds h.2 hp

end ConfTree
