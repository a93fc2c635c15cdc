import FormCompiler.Expr.Basic
import FormCompiler.Sameness

/-!
# The nodes of an expression

An expression is a node with a label and parts. The children are the parts that a traversal visits; the
expressions of runtime slots are parts of the label to it. Equality compares fingerprints, labels and parts, and
takes a part that is the very same object as equal at once.
-/

namespace FormCompiler

namespace Expr

variable {K : Type}

/-! ## Children and size -/

/-- The parts that a traversal visits, from left to right. -/
def children : Expr K → List (Expr K)
  | .binary _ a b => [a, b]
  | .negation a => [a]
  | .call _ args => args
  | .conditional c y n => [c, y, n]
  | .indexed t _ => [t]
  | .access name shape _ => [.var name shape]
  | .componentTensor body _ => [body]
  | .indexSum body _ => [body]
  | .listTensor _ entries => entries
  | .concatenate parts => parts
  | _ => []

def runtimeSlots : Expr K → List (Expr K)
  | .indexed _ slots => slots.filterMap Slot.expr?
  | .delta i j => [i, j].filterMap Slot.expr?
  | _ => []

theorem sizeOf_lt_of_mem_children {c e : Expr K} (h : c ∈ e.children) : sizeOf c < sizeOf e := by
  cases e <;> simp only [children, List.mem_cons, List.not_mem_nil, or_false] at h
  case call => have := List.sizeOf_lt_of_mem h; simp only [call.sizeOf_spec]; omega
  case listTensor => have := List.sizeOf_lt_of_mem h; simp only [listTensor.sizeOf_spec]; omega
  case concatenate => have := List.sizeOf_lt_of_mem h; simp only [concatenate.sizeOf_spec]; omega
  case access name shape dims =>
    subst h
    simp only [var.sizeOf_spec, access.sizeOf_spec]
    cases dims <;> simp only [List.nil.sizeOf_spec, List.cons.sizeOf_spec] <;> omega
  case binary => rcases h with rfl | rfl <;> simp only [binary.sizeOf_spec] <;> omega
  case conditional => rcases h with rfl | rfl | rfl <;> simp only [conditional.sizeOf_spec] <;> omega
  case negation => subst h; simp only [negation.sizeOf_spec]; omega
  case indexed => subst h; simp only [indexed.sizeOf_spec]; omega
  case componentTensor => subst h; simp only [componentTensor.sizeOf_spec]; omega
  case indexSum => subst h; simp only [indexSum.sizeOf_spec]; omega

theorem sizeOf_lt_of_mem_runtimeSlots {c e : Expr K} (h : c ∈ e.runtimeSlots) : sizeOf c < sizeOf e := by
  cases e <;> simp only [runtimeSlots, List.not_mem_nil] at h
  case indexed t slots =>
    obtain ⟨s, hs, hc⟩ := List.mem_filterMap.1 h
    have : s = .runtime c := by cases s <;> simp_all [Slot.expr?]
    subst this
    have := Slot.sizeOf_lt_of_runtime_mem hs
    simp only [indexed.sizeOf_spec]
    omega
  case delta i j =>
    obtain ⟨s, hs, hc⟩ := List.mem_filterMap.1 h
    have : s = .runtime c := by cases s <;> simp_all [Slot.expr?]
    subst this
    simp only [List.mem_cons, List.not_mem_nil, or_false] at hs
    rcases hs with rfl | rfl <;> simp only [delta.sizeOf_spec, Slot.runtime.sizeOf_spec] <;> omega

def parts (e : Expr K) : List (Expr K) := e.children ++ e.runtimeSlots

theorem sizeOf_lt_of_mem_parts {c e : Expr K} (h : c ∈ e.parts) : sizeOf c < sizeOf e :=
  (List.mem_append.1 h).elim sizeOf_lt_of_mem_children sizeOf_lt_of_mem_runtimeSlots

/-! ## Labels -/

inductive Label (K : Type) where
  | zero (shape : Shape)
  | identity (dim : Nat)
  | literal (value : Tensor K) (stamp : UInt64)
  | var (name : String) (shape : Shape)
  | failure (shape : Shape) (kind text : String) (serial : Nat)
  | binary (op : BinaryOp)
  | negation
  | call (name : String)
  | conditional
  | indexed (slots : List (Slot Unit))
  | access (name : String) (shape : Shape) (dims : List DimAccess)
  | componentTensor (binders : List Binder)
  | indexSum (binders : List Binder)
  | listTensor (shape : List Nat)
  | concatenate
  | delta (i j : Slot Unit)

def label : Expr K → Label K
  | .zero s => .zero s
  | .identity n => .identity n
  | .literal v s => .literal v s
  | .var n s => .var n s
  | .failure s k t n => .failure s k t n
  | .binary op _ _ => .binary op
  | .negation _ => .negation
  | .call n _ => .call n
  | .conditional _ _ _ => .conditional
  | .indexed _ slots => .indexed (slots.map (Slot.map fun _ => ()))
  | .access n s d => .access n s d
  | .componentTensor _ b => .componentTensor b
  | .indexSum _ b => .indexSum b
  | .listTensor s _ => .listTensor s
  | .concatenate _ => .concatenate
  | .delta i j => .delta (i.map fun _ => ()) (j.map fun _ => ())

/-- Slots without their expressions, position by position. -/
def sameSlots : List (Slot Unit) → List (Slot Unit) → Bool
  | [], [] => true
  | s :: ss, t :: ts => s.beqBy (fun _ _ => true) t && sameSlots ss ts
  | _, _ => false

variable [Scalar K]

def Label.same : Label K → Label K → Bool
  | .zero s, .zero t => s == t
  | .identity m, .identity n => m == n
  | .literal u s, .literal v t => s == t && u.same v
  | .var m s, .var n t => m == n && s == t
  | .failure s k t m, .failure s' k' t' n => s == s' && k == k' && t == t' && m == n
  | .binary op, .binary op' => op == op'
  | .negation, .negation => true
  | .call m, .call n => m == n
  | .conditional, .conditional => true
  | .indexed s, .indexed t => sameSlots s t
  | .access m s d, .access n t d' => m == n && s == t && d == d'
  | .componentTensor b, .componentTensor c => b == c
  | .indexSum b, .indexSum c => b == c
  | .listTensor s, .listTensor t => s == t
  | .concatenate, .concatenate => true
  | .delta i j, .delta k l => sameSlots [i, j] [k, l]
  | _, _ => false

theorem sameSlots_self (s : List (Slot Unit)) : sameSlots s s = true := by
  induction s with
  | nil => rfl
  | cons a s ih => cases a <;> simp [sameSlots, Slot.beqBy, ih]

theorem Label.same_self (l : Label K) : l.same l = true := by
  cases l <;> simp [Label.same, Tensor.same_self, sameSlots_self]

/-! ## Equality -/

/-- Are two expressions the same? Carries that an expression is the same as itself, by which a part that is the
very same object need not be looked at. -/
def compareSame (a b : Expr K) : { r : Bool // a = b → r = true } :=
  let inner := compareAll a.parts b.parts fun x hx y =>
    have := sizeOf_lt_of_mem_parts hx
    ⟨withPtrEq x y (fun _ => (compareSame x y).1) (compareSame x y).2, (compareSame x y).2⟩
  ⟨a.key == b.key && (a.label.same b.label && inner.1), by
    intro heq
    subst heq
    simp [Label.same_self, inner.2 rfl]⟩
termination_by sizeOf a

/-- Sameness of expressions, by which parts are shared and results kept. -/
def same (a b : Expr K) : Bool := withPtrEq a b (fun _ => (compareSame a b).1) (compareSame a b).2

instance : BEq (Expr K) := ⟨same⟩

instance : Hashable (Expr K) := ⟨fun e => e.key⟩

theorem same_self (e : Expr K) : (e == e) = true := (compareSame e e).2 rfl

instance : BEq (Slot (Expr K)) := ⟨Slot.beqBy same⟩

instance : Hashable (Slot (Expr K)) where
  hash
    | .fixed n => mixHash 1 (hash n)
    | .free i => mixHash 2 (hash i)
    | .runtime e => mixHash 3 e.key

/-! ## Shape -/

/-- The number of entries of parts laid one after the other, none if an extent is open. -/
def totalSize (shapes : List Shape) : Extent :=
  shapes.foldlM (fun acc s => s.size?.map (acc + ·)) 0

mutual

/-- The extents of the tensor that an expression denotes. -/
def shape : Expr K → Shape
  | .zero s => s
  | .identity n => [some n, some n]
  | .literal v _ => Shape.ofNats v.shape
  | .var _ s => s
  | .failure s _ _ _ => s
  | .conditional _ y _ => y.shape
  | .componentTensor _ binders => binders.map fun b => some b.2
  | .listTensor s _ => Shape.ofNats s
  | .concatenate parts => [totalSize (shapes parts)]
  | _ => []

def shapes : List (Expr K) → List Shape
  | [] => []
  | e :: es => e.shape :: shapes es

end

/-! ## Kinds of nodes -/

/-- Is the expression a constant: zero, unit matrix or literal? -/
def isConstant : Expr K → Bool
  | .zero _ | .identity _ | .literal _ _ => true
  | _ => false

def isZero : Expr K → Bool
  | .zero _ => true
  | _ => false

/-- The running indices in the order in which the node uses them, for a node that addresses entries. -/
def indexOrder? : Expr K → Option (List Index)
  | .indexed _ slots => some (slots.filterMap Slot.index?)
  | .access _ _ dims => some (dims.flatMap fun d => d.terms.map Prod.fst)
  | _ => none

def comparisonText : Comparison → String
  | .less => "<"
  | .lessEq => "<="
  | .equal => "=="
  | .notEqual => "!="
  | .greater => ">"
  | .greaterEq => ">="

/-- The name of an operator's kind of node. -/
def opName : BinaryOp → String
  | .sum => "Sum"
  | .product => "Product"
  | .quotient => "Division"
  | .power => "Power"
  | .minimum => "MinValue"
  | .maximum => "MaxValue"
  | .conjunction => "LogicalAnd"
  | .disjunction => "LogicalOr"
  | .compare _ => "Comparison"

def kindName : Expr K → String
  | .zero _ => "Zero"
  | .identity _ => "Identity"
  | .literal _ _ => "Literal"
  | .var _ _ => "Variable"
  | .failure _ _ _ _ => "Failure"
  | .binary op _ _ => opName op
  | .negation _ => "LogicalNot"
  | .call _ _ => "MathFunction"
  | .conditional _ _ _ => "Conditional"
  | .indexed _ _ => "Indexed"
  | .access _ _ _ => "FlexiblyIndexed"
  | .componentTensor _ _ => "ComponentTensor"
  | .indexSum _ _ => "IndexSum"
  | .listTensor _ _ => "ListTensor"
  | .concatenate _ => "Concatenate"
  | .delta _ _ => "Delta"

end Expr

end FormCompiler
