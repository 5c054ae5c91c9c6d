import DataBinding.Proofs.Model.Dynamic
import DataBinding.Proofs.Model.Memo
import DataBinding.Proofs.Types.Order

/-!
# Proofs — Models — values fit types

Typing looks at the declared types of an expression, evaluation at the values it meets.  The two
agree: where an expression has a type and a value, and the environment gives to variables and
properties what their types say, the value is of the kind that the type says.

The agreement rests on the common ancestor of two types: it is a number only for two numbers,
`boolean` only for itself, and `String` only for itself where `String` has no subclasses.

* `TypeTable.Reached.binary_fits`: operators keep the agreement.
* `Expr.eval_fits`: expressions have it.
* `Model.value_fits_type`: nodes have it with the types that their model finds and keeps.
-/

namespace DataBinding

variable {ι : Type} {t : TypeTable} {a b c : Ty} {m n : Numeric} {v w x : Value}

/-! ### Kinds of values -/

/-- The kind of the values of a type, for the types whose values are of one kind. -/
def ValueKind.ofType? : String → Option ValueKind
  | "byte" | "short" | "int" | "long" => some .int
  | "float" | "double" => some .float
  | "boolean" => some .boolean
  | "String" => some .string
  | _ => none

def ValueKind.isNumber : ValueKind → Bool
  | int | float => true
  | boolean | string => false

/-- The value is of the kind that values of the type are. -/
def Value.Fits (v : Value) (type : Ty) : Prop :=
  ∀ kind, ValueKind.ofType? type.name = some kind → v.kind = kind

/-- The kind of the values of a number type. -/
def Numeric.kind : Numeric → ValueKind
  | byte | short | int | long => .int
  | float | double => .float

theorem Numeric.ofType?_name (n : Numeric) : ValueKind.ofType? n.name = some n.kind := by
  cases n <;> rfl

theorem Numeric.name_ne_string (n : Numeric) : n.name ≠ "String" := by
  cases n <;> decide

theorem Numeric.kind_ne_string (n : Numeric) : n.kind ≠ .string := by
  cases n <;> exact nofun

theorem Value.fits_numeric : v.Fits ⟨n.name⟩ ↔ v.kind = n.kind := by
  simp [Value.Fits, n.ofType?_name]

/-- Values of two numbers make one of the wider. -/
theorem Numeric.kind_wider (m n : Numeric) :
    (m.wider n).kind = if m.kind = .int ∧ n.kind = .int then .int else .float := by
  cases m <;> cases n <;> rfl

/-- The types whose values are of one kind are the numbers, `boolean` and `String`. -/
theorem ValueKind.ofType?_cases {name : String} {kind : ValueKind}
    (h : ValueKind.ofType? name = some kind) :
    (∃ n : Numeric, name = n.name ∧ kind = n.kind) ∨ (name = "boolean" ∧ kind = .boolean) ∨
      (name = "String" ∧ kind = .string) := by
  unfold ValueKind.ofType? at h
  split at h <;> cases h
  · exact .inl ⟨.byte, rfl, rfl⟩
  · exact .inl ⟨.short, rfl, rfl⟩
  · exact .inl ⟨.int, rfl, rfl⟩
  · exact .inl ⟨.long, rfl, rfl⟩
  · exact .inl ⟨.float, rfl, rfl⟩
  · exact .inl ⟨.double, rfl, rfl⟩
  · exact .inr (.inl ⟨rfl, rfl⟩)
  · exact .inr (.inr ⟨rfl, rfl⟩)

/-! ### Operators on values -/

/-- What an operator makes of a text: a text, if it adds. -/
theorem BinaryOp.apply_text {op : BinaryOp} (h : op.apply v w = .ok x)
    (htext : v.kind = .string ∨ w.kind = .string) : op = .add ∧ x.kind = .string := by
  cases op with
  | add => cases v <;> cases w <;> simp [Value.kind] at htext <;> cases h <;> exact ⟨rfl, rfl⟩
  | _ => cases v <;> cases w <;> simp [Value.kind] at htext <;> cases h

/-- What an operator makes of other values: an integer of two integers, and a double of two other
numbers. -/
theorem BinaryOp.apply_number {op : BinaryOp} (h : op.apply v w = .ok x) (hv : v.kind ≠ .string)
    (hw : w.kind ≠ .string) :
    v.kind.isNumber ∧ w.kind.isNumber ∧
      x.kind = if v.kind = .int ∧ w.kind = .int then .int else .float := by
  cases v with
  | str => exact absurd rfl hv
  | bool y =>
      cases w with
      | str => exact absurd rfl hw
      | _ => cases op <;> cases h
  | float y =>
      cases w with
      | str => exact absurd rfl hw
      | bool => cases op <;> cases h
      | int | float => cases op <;> cases h <;> exact ⟨rfl, rfl, rfl⟩
  | int y =>
      cases w with
      | str => exact absurd rfl hw
      | bool => cases op <;> cases h
      | float => cases op <;> cases h <;> exact ⟨rfl, rfl, rfl⟩
      | int z =>
          have hmap : (op.onInts y z).map Value.int = .ok x := by cases op <;> exact h
          cases hz : op.onInts y z with
          | error e =>
              rw [hz] at hmap
              cases hmap
          | ok z' =>
              rw [hz] at hmap
              cases hmap
              exact ⟨rfl, rfl, rfl⟩

theorem UnaryOp.apply_kind {op : UnaryOp} (h : op.apply v = .ok x) :
    x.kind = v.kind ∧ (op = .not → x.kind = .boolean) := by
  cases op <;> cases v <;> cases h <;> simp [Value.kind]

/-- A conversion between numbers gives a value of the type. -/
theorem Value.cast_fits (h : v.kind = m.kind) : (v.cast n.name).Fits ⟨n.name⟩ := by
  rw [fits_numeric]
  have hv : v.kind = .int ∨ v.kind = .float := by
    rw [h]
    cases m <;> simp [Numeric.kind]
  cases n <;> cases v <;> simp [Value.kind] at hv <;> rfl

/-- The kind of the values that a form reads. -/
def Literal.Form.kind : Literal.Form → ValueKind
  | integer => .int
  | floating => .float
  | truth => .boolean
  | quoted => .string

theorem Literal.Form.read?_kind {text : List Char} {form : Literal.Form}
    (h : form.read? text = some v) : v.kind = form.kind := by
  cases form with
  | integer | floating | quoted =>
      obtain ⟨y, -, rfl⟩ := Option.map_eq_some_iff.mp h
      rfl
  | truth =>
      rw [read?] at h
      split at h
      · cases h
        rfl
      · split at h <;> cases h
        rfl

/-- A literal is read as a value of its type. -/
theorem Literal.read?_fits {text ty : String} (h : Literal.read? text ty = some v) : v.Fits ⟨ty⟩ := by
  intro kind hkind
  obtain ⟨form, hform, hread⟩ := Option.bind_eq_some_iff.mp h
  rw [Form.read?_kind hread]
  rcases ValueKind.ofType?_cases hkind with ⟨n, rfl, rfl⟩ | ⟨rfl, rfl⟩ | ⟨rfl, rfl⟩
  · cases n <;> cases hform <;> rfl
  · cases hform
    rfl
  · cases hform
    rfl

/-! ### Common ancestors whose values are of one kind -/

namespace TypeTable

/-- The class is new, and its parent is a class other than `String`. -/
def PlainClass (t : TypeTable) (name parent : String) : Prop :=
  t.NewClass name parent ∧ parent ≠ "String"

instance (t : TypeTable) (name parent : String) : Decidable (t.PlainClass name parent) :=
  inferInstanceAs (Decidable (_ ∧ _))

theorem Reached.plain_hierarchy (ht : t.Reached PlainClass) : t.Hierarchy :=
  (ht.mono fun _ _ _ h => h.1).hierarchy

theorem Reached.parent_ne_string (ht : t.Reached PlainClass) (h : t.parent? a = some b) :
    b ≠ string := by
  induction ht with
  | standard =>
      rw [(parent?_standard h).2]
      decide
  | registerClass _ hok ih =>
      rw [parent?_registerClass] at h
      split at h
      · cases h
        exact fun heq => hok.2 (congrArg Ty.name heq)
      · exact ih h
  | registerProperty _ hok ih =>
      rw [parent?, form?_registerProperty hok] at h
      exact ih h

/-- `String` has no subclasses. -/
theorem Reached.eq_string_of_inherits (ht : t.Reached PlainClass) (h : t.Inherits a string) :
    a = string := by
  cases h with
  | refl => rfl
  | tail _ hp => exact absurd rfl (ht.parent_ne_string hp)

/-- Only numbers meet in a number. -/
theorem Joins.eq_number (h : t.Hierarchy) (ht : t.Named) {k : Numeric} (hj : t.Joins a b c)
    (hc : c = ⟨k.name⟩) (ha : a ≠ ⟨"char"⟩) (hb : b ≠ ⟨"char"⟩) :
    ∃ m n : Numeric, a = ⟨m.name⟩ ∧ b = ⟨n.name⟩ ∧ k = m.wider n := by
  have hprimitive : t.Primitive c := ⟨_, hc ▸ h.numeric k, rfl⟩
  have number {x : Ty} {m : Numeric} (hx : t.promoted? x = some m) (hne : x ≠ ⟨"char"⟩) :
      x = ⟨m.name⟩ := by
    rcases promoted?_cases hx with hform | ⟨hform, -⟩
    · exact ht.name hform rfl
    · exact absurd (ht.name hform rfl) hne
  cases hj with
  | same => exact ⟨k, k, hc, hc, k.wider_self.symm⟩
  | classes _ ha' _ _ _ hfirst =>
      exact absurd (h.isClass_of_inherits ha' hfirst.inherits) hprimitive.not_isClass
  | numbers _ hm hn =>
      exact ⟨_, _, number hm ha, number hn hb, Numeric.name_injective (congrArg Ty.name hc).symm⟩
  | apart => exact absurd ht.object hprimitive.not_isClass

/-- Only `boolean` meets in `boolean`. -/
theorem Joins.eq_boolean (h : t.Hierarchy) (ht : t.Named) (hj : t.Joins a b c) (hc : c = boolean) :
    a = boolean ∧ b = boolean := by
  have hform : t.form? c = some .boolean := hc ▸ h.boolean
  have hprimitive : t.Primitive c := ⟨_, hform, rfl⟩
  cases hj with
  | same => exact ⟨hc, hc⟩
  | classes _ ha _ _ _ hfirst =>
      exact absurd (h.isClass_of_inherits ha hfirst.inherits) hprimitive.not_isClass
  | numbers => cases (h.numeric _).symm.trans hform
  | apart => exact absurd ht.object hprimitive.not_isClass

/-- Only `String` meets in `String`. -/
theorem Joins.eq_string (ht : t.Reached PlainClass) (hj : t.Joins a b c) (hc : c = string) :
    a = string ∧ b = string := by
  cases hj with
  | same => exact ⟨hc, hc⟩
  | classes _ _ _ _ _ hfirst =>
      subst hc
      exact ⟨ht.eq_string_of_inherits hfirst.inherits, ht.eq_string_of_inherits hfirst.holds⟩
  | numbers => exact absurd (congrArg Ty.name hc) (Numeric.name_ne_string _)
  | apart => exact absurd hc (by decide)

theorem findType_ok {name : String} (h : t.findType name = .ok a) : a = ⟨name⟩ := by
  rw [findType] at h
  cases he : t.entry name with
  | error e =>
      rw [he] at h
      cases h
  | ok e =>
      rw [he] at h
      cases h
      rfl

/-- An operator on values that fit gives a value that fits. -/
theorem Reached.binary_fits (ht : t.Reached PlainClass) {op : BinaryOp}
    (htype : t.resolver.binaryType op a b = .ok c) (ha : a ≠ ⟨"char"⟩) (hb : b ≠ ⟨"char"⟩)
    (hv : v.Fits a) (hw : w.Fits b) (hx : op.apply v w = .ok x) : x.Fits c := by
  have text {y : Value} (h : y.Fits string) : y.kind = .string := h .string rfl
  rw [Resolver.binaryType] at htype
  split at htype
  · rename_i hadd
    obtain rfl := findType_ok htype
    have htext : v.kind = .string ∨ w.kind = .string := by
      rcases hadd.2 with hstring | hstring
      · obtain rfl : a = string := by simpa [resolver] using hstring
        exact .inl (text hv)
      · obtain rfl : b = string := by simpa [resolver] using hstring
        exact .inr (text hw)
    intro kind hkind
    cases hkind
    exact (BinaryOp.apply_text hx htext).2
  · rename_i hadd
    have hn := ht.named
    have h := ht.plain_hierarchy
    have hj : t.Joins a b c := (commonAncestor_ok_iff hn).mp htype
    intro kind hkind
    rcases ValueKind.ofType?_cases hkind with ⟨k, hname, rfl⟩ | ⟨hname, rfl⟩ | ⟨hname, rfl⟩
    · obtain ⟨m, n, rfl, rfl, rfl⟩ := hj.eq_number h hn (congrArg Ty.mk hname) ha hb
      rw [Value.fits_numeric] at hv hw
      have hkind := (BinaryOp.apply_number hx (hv ▸ m.kind_ne_string) (hw ▸ n.kind_ne_string)).2.2
      rw [hkind, hv, hw, Numeric.kind_wider]
    · obtain ⟨rfl, rfl⟩ := hj.eq_boolean h hn (congrArg Ty.mk hname)
      have hboolean : v.kind = .boolean := hv .boolean rfl
      have hboolean' : w.kind = .boolean := hw .boolean rfl
      have hnumber := (BinaryOp.apply_number hx (by simp [hboolean]) (by simp [hboolean'])).1
      rw [hboolean] at hnumber
      cases hnumber
    · obtain ⟨rfl, rfl⟩ := hj.eq_string ht (congrArg Ty.mk hname)
      have hop := (BinaryOp.apply_text hx (.inl (text hv))).1
      exact absurd ⟨hop, .inl (by simp [resolver])⟩ hadd

end TypeTable

/-! ### Expressions -/

/-- The node is neither a conditional nor an assignment, and if it is a cast, it is one of a number to
a number. -/
def Expr.Arithmetic {ε : Type} (typeOf : Expr ι → Except ε Ty) : Expr ι → Prop
  | cast _ ty operand => (∃ n : Numeric, ty = n.name) ∧ ∃ m : Numeric, typeOf operand = .ok ⟨m.name⟩
  | conditional _ _ _ _ | assign _ _ _ _ => False
  | literal _ _ _ | identifier _ _ _ | property _ _ _ | binary _ _ _ _ | unary _ _ _ | group _ _ =>
    True

theorem Expr.Arithmetic.mono {ε δ : Type} {typeOf : Expr ι → Except ε Ty}
    {typeOf' : Expr ι → Except δ Ty} {e : Expr ι} (he : e.Arithmetic typeOf)
    (h : ∀ c ∈ e.children, ∀ type, typeOf c = .ok type → typeOf' c = .ok type) :
    e.Arithmetic typeOf' := by
  cases e with
  | cast l ty operand =>
      obtain ⟨hty, m, hm⟩ := he
      exact ⟨hty, m, h operand (List.mem_singleton_self operand) _ hm⟩
  | _ => exact he

/-- What is read from the environment is what it gives to a path. -/
theorem Env.read_ok {env : Env} {path : Option String} (h : env.read path = .ok v) :
    ∃ p, path = some p ∧ env p = some v := by
  cases path with
  | none => cases h
  | some p =>
      rw [Env.read] at h
      cases hv : env p with
      | none =>
          rw [hv] at h
          cases h
      | some w =>
          rw [hv] at h
          cases h
          exact ⟨p, rfl, hv⟩

theorem Expr.forall_partOf {P : Expr ι → Prop} {whole : Expr ι} (h : P whole)
    (hparts : ∀ c ∈ whole.children, ∀ e : Expr ι, e.PartOf c → P e) :
    ∀ e : Expr ι, e.PartOf whole → P e := by
  intro e he
  cases he with
  | self => exact h
  | child hc he => exact hparts _ hc e he

/-- Values fit the types of expressions, where those of variables and properties do. -/
theorem Expr.eval_fits (ht : t.Reached TypeTable.PlainClass) {e : Expr ι} {env : Env} {type : Ty}
    (hshape : ∀ p : Expr ι, p.PartOf e → p.Arithmetic t.resolver.plainType)
    (hchar : ∀ p : Expr ι, p.PartOf e → t.resolver.plainType p ≠ .ok ⟨"char"⟩)
    (henv : ∀ p : Expr ι, p.PartOf e → ∀ path type v, p.path? = some path →
      t.resolver.plainType p = .ok type → env path = some v → v.Fits type)
    (htype : t.resolver.plainType e = .ok type) (heval : e.eval env = .ok v) : v.Fits type := by
  induction e using children_induction generalizing type v with
  | step e ih =>
      have part {c : Expr ι} (hc : c ∈ e.children) {type : Ty} {v : Value}
          (htype : t.resolver.plainType c = .ok type) (heval : c.eval env = .ok v) : v.Fits type :=
        ih c hc (fun p hp => hshape p (.child hc hp)) (fun p hp => hchar p (.child hc hp))
          (fun p hp => henv p (.child hc hp)) htype heval
      have char {c : Expr ι} (hc : c ∈ e.children) {type : Ty}
          (htype : t.resolver.plainType c = .ok type) : type ≠ ⟨"char"⟩ := by
        rintro rfl
        exact hchar c (.child hc .self) htype
      cases e with
      | literal l text ty =>
          obtain rfl := TypeTable.findType_ok htype
          rw [eval, Literal.eval] at heval
          cases hread : Literal.read? text ty with
          | none =>
              rw [hread] at heval
              cases heval
          | some w =>
              rw [hread] at heval
              cases heval
              exact Literal.read?_fits hread
      | identifier | property =>
          obtain ⟨path, hpath, hv⟩ := Env.read_ok heval
          exact henv _ .self path type v hpath htype hv
      | binary l left op right =>
          have hleft : left ∈ (binary l left op right).children := by
            simp [children, layer, Layer.children]
          have hright : right ∈ (binary l left op right).children := by
            simp [children, layer, Layer.children]
          obtain ⟨a, ha, htype⟩ := bind_ok htype
          obtain ⟨b, hb, htype⟩ := bind_ok htype
          obtain ⟨x, hx, heval⟩ := bind_ok heval
          obtain ⟨y, hy, heval⟩ := bind_ok heval
          exact ht.binary_fits htype (char hleft ha) (char hright hb) (part hleft ha hx)
            (part hright hb hy) heval
      | unary l op operand =>
          obtain ⟨x, hx, happly⟩ := bind_ok heval
          cases op with
          | not =>
              obtain rfl := TypeTable.findType_ok htype
              intro kind hkind
              cases hkind
              exact (UnaryOp.apply_kind happly).2 rfl
          | neg | bitNot =>
              intro kind hkind
              rw [(UnaryOp.apply_kind happly).1]
              exact part (List.mem_singleton_self operand) htype hx kind hkind
      | group l inner => exact part (List.mem_singleton_self inner) htype heval
      | cast l ty operand =>
          obtain ⟨⟨n, rfl⟩, m, hm⟩ := hshape _ .self
          obtain rfl := TypeTable.findType_ok htype
          obtain ⟨x, hx, hcast⟩ := bind_ok heval
          cases hcast
          exact Value.cast_fits (Value.fits_numeric.mp (part (List.mem_singleton_self operand) hm hx))
      | conditional | assign => exact (hshape _ .self).elim

/-! ### Nodes -/

namespace Model

variable {R : Resolver} {s : Model} {node : Node}

/-- The answer to a question for the type of a node. -/
def typeAnswer (s : Model) (R : Resolver) (node : Node) : Except BindingError Ty :=
  ((R.nodeType node).onModel s).value.1

theorem TypingRun.typeAnswer_eq (hrun : TypingRun (· = R) {} s) (hn : s.Holds node) :
    s.typeAnswer R node = (R.plainType node).mapError .type :=
  hrun.memoized.exact.nodeType_eq (hrun.reachable .empty).sound hn

/-- A node has the type that the rules give without cells. -/
theorem TypingRun.typeAnswer_ok_iff (hrun : TypingRun (· = R) {} s) (hn : s.Holds node)
    {type : Ty} : s.typeAnswer R node = .ok type ↔ R.plainType node = .ok type := by
  rw [hrun.typeAnswer_eq hn]
  cases R.plainType node <;> simp [Except.mapError]

/-- **Values fit types.**  Take a table in which every class has been registered once, under a class
other than `String`, and with any properties.  Let a node of a model be made of literals, variables,
properties, operators, groups, and casts of a number to a number, none of them of type `char`, and
let the environment give to variables and properties, where they have a type and a value, one that
fits.  Then the value of the node, where it has one and a type, fits its type: an integer for `byte`,
`short`, `int` and `long`, a double for `float` and `double`, a truth value for `boolean`, a text for
`String`. -/
theorem value_fits_type (ht : t.Reached TypeTable.PlainClass)
    (hrun : TypingRun (· = t.resolver) {} s) {i : NodeId} (hnode : s.node? i = some node)
    {env : Env} {type : Ty}
    (hshape : ∀ e : Node, e.PartOf node → e.Arithmetic (s.typeAnswer t.resolver))
    (hchar : ∀ e : Node, e.PartOf node → s.typeAnswer t.resolver e ≠ .ok ⟨"char"⟩)
    (henv : ∀ e : Node, e.PartOf node → ∀ path type v, e.path? = some path →
      s.typeAnswer t.resolver e = .ok type → env path = some v → v.Fits type)
    (htype : s.typeAnswer t.resolver node = .ok type) (heval : node.eval env = .ok v) :
    v.Fits type := by
  have hs := (hrun.reachable .empty).sound
  have hn := hs.holds hnode
  have answer {e : Node} (he : e.PartOf node) {type : Ty} :
      s.typeAnswer t.resolver e = .ok type ↔ t.resolver.plainType e = .ok type :=
    hrun.typeAnswer_ok_iff (hs.holds_part hn he)
  refine Expr.eval_fits ht (fun e he => (hshape e he).mono fun c hc type h => ?_) (fun e he => ?_)
    (fun e he path type v hpath hplain => ?_) ((answer .self).mp htype) heval
  · exact (hrun.typeAnswer_ok_iff (hs.child (hs.holds_part hn he) hc)).mp h
  · exact fun hplain => hchar e he ((answer he).mpr hplain)
  · exact henv e he path type v hpath ((answer he).mpr hplain)

/-- With `u.age` an `int`, the quotient `(double) (u.age) / 2` has type `double`; where `u.age` is 41,
it has a value, and that is a double. -/
theorem value_fits_type_quotient :
    ∃ (t : TypeTable) (s : Model) (env : Env) (node : Node) (v : Value),
      (TypeTable.standard.registerClass "User" "Object").registerProperty "User" "age" "int" = .ok t ∧
      s = build [.identifier "u" "User", .property 0 "age", .cast "double" 1, .literal "2" "int",
        .binary 2 .div 3] ∧
      (env = fun path => if path = "u.age" then some (.int 41) else none) ∧
      s.node? 4 = some node ∧ s.typeAnswer t.resolver node = .ok ⟨"double"⟩ ∧
      node.eval env = .ok v ∧ v.kind = .float := by
  obtain ⟨t, ht⟩ : ∃ t, (TypeTable.standard.registerClass "User" "Object").registerProperty "User"
    "age" "int" = .ok t := ⟨_, rfl⟩
  have hreached : t.Reached TypeTable.PlainClass :=
    .registerProperty (.registerClass .standard (by decide +kernel)) ht
  obtain ⟨s, hs⟩ : ∃ s, s = build [.identifier "u" "User", .property 0 "age", .cast "double" 1,
    .literal "2" "int", .binary 2 .div 3] := ⟨_, rfl⟩
  have hrun : TypingRun (· = t.resolver) {} s :=
    hs ▸ .add (.add (.add (.add (.add .refl _) _) _) _) _
  obtain ⟨env, henv⟩ : ∃ env : Env,
    env = fun path => if path = "u.age" then some (.int 41) else none := ⟨_, rfl⟩
  obtain ⟨node, hnode, l₀, l₁, l₂, l₃, l₄, hquotient⟩ : ∃ node, s.node? 4 = some node ∧
      ∃ l₀ l₁ l₂ l₃ l₄, node = .binary l₄ (.cast l₂ "double" (.property l₁
        (.identifier l₀ "u" "User") "age")) .div (.literal l₃ "2" "int") := by
    rw [hs]
    exact ⟨_, rfl, _, _, _, _, _, rfl⟩
  obtain ⟨huser, hage, hdouble, hint, hjoin⟩ : t.resolver.findType "User" = .ok ⟨"User"⟩ ∧
      t.resolver.propertyType ⟨"User"⟩ "age" = .ok ⟨"int"⟩ ∧
      t.resolver.findType "double" = .ok ⟨"double"⟩ ∧ t.resolver.findType "int" = .ok ⟨"int"⟩ ∧
      t.resolver.binaryType .div ⟨"double"⟩ ⟨"int"⟩ = .ok ⟨"double"⟩ := by
    cases ht
    decide +kernel
  have htype : t.resolver.plainType node = .ok ⟨"double"⟩ := by
    rw [hquotient, Resolver.plainType, Resolver.plainType, Resolver.plainType, hdouble, hint]
    exact hjoin
  -- every part has a type other than `char`, and what the environment gives to it fits
  have hparts : ∀ e : Node, e.PartOf node → e.Arithmetic t.resolver.plainType ∧
      ∃ type, t.resolver.plainType e = .ok type ∧ type ≠ ⟨"char"⟩ ∧
        ∀ path v, e.path? = some path → env path = some v → v.Fits type := by
    have hproperty : t.resolver.plainType (.property l₁ (.identifier l₀ "u" "User") "age") =
        .ok ⟨"int"⟩ := by
      rw [Resolver.plainType, Resolver.plainType, huser]
      exact hage
    subst henv hquotient
    refine Expr.forall_partOf ⟨trivial, ⟨"double"⟩, htype, by decide, nofun⟩
      (List.forall_mem_cons.mpr ⟨?_, List.forall_mem_singleton.mpr
        (Expr.forall_partOf ⟨trivial, ⟨"int"⟩, hint, by decide, nofun⟩ nofun)⟩)
    refine Expr.forall_partOf ⟨⟨⟨.double, rfl⟩, .int, hproperty⟩, ⟨"double"⟩, hdouble, by decide,
      nofun⟩ (List.forall_mem_singleton.mpr ?_)
    refine Expr.forall_partOf ⟨trivial, ⟨"int"⟩, hproperty, by decide, ?_⟩
      (List.forall_mem_singleton.mpr
        (Expr.forall_partOf ⟨trivial, ⟨"User"⟩, huser, by decide, ?_⟩ nofun))
    · rintro path v ⟨⟩ hv kind ⟨⟩
      cases hv
      rfl
    · rintro path v ⟨⟩ hv
      simp at hv
  obtain ⟨v, hv⟩ : ∃ v, node.eval env = .ok v := by
    rw [henv, hquotient]
    exact ⟨_, rfl⟩
  have hsound := (hrun.reachable .empty).sound
  have held {e : Node} (he : e.PartOf node) : s.Holds e := hsound.holds_part (hsound.holds hnode) he
  have hanswer := (hrun.typeAnswer_ok_iff (held .self)).mpr htype
  have hfits := value_fits_type hreached hrun hnode
    (fun e he => (hparts e he).1.mono fun c hc type h =>
      (hrun.typeAnswer_ok_iff (hsound.child (held he) hc)).mpr h)
    (fun e he h => by
      obtain ⟨-, type, htype, hne, -⟩ := hparts e he
      cases htype.symm.trans ((hrun.typeAnswer_ok_iff (held he)).mp h)
      exact hne rfl)
    (fun e he path type v hpath h hv => by
      obtain ⟨-, type', htype, -, hfit⟩ := hparts e he
      cases htype.symm.trans ((hrun.typeAnswer_ok_iff (held he)).mp h)
      exact hfit path v hpath hv)
    hanswer hv
  exact ⟨t, s, env, node, v, ht, hs, henv, hnode, hanswer, hv, hfits .float rfl⟩

end Model

end DataBinding
