import SchemaStitch.Proofs.Sdl.Numbers
import SchemaStitch.Sdl.Grammar

/-! What the grammar accepts. Names are names, numbers are numbers, constants hold no variables and
nothing nests too deep, in every part of a document that is read from a text. -/
namespace SchemaStitch.Sdl

open Token

/-- Whether a lexeme is one that its own text is read as. -/
def Token.Spelled : Token → Prop
  | .name n => IsName n
  | .int text => Spells text [.int text]
  | .float text => Spells text [.float text]
  | _ => True

/-- A type reference of names that nests within a limit. -/
inductive TypeRef.Spelled : Nat → TypeRef → Prop
  | named {depth : Nat} {n : Name} (own : IsName n) : Spelled (depth + 1) (.named n)
  | list {depth : Nat} {item : TypeRef} (own : item.Spelled depth) :
      Spelled (depth + 1) (.list item)
  | nonNull {depth : Nat} {type : TypeRef} (own : type.Spelled depth)
      (nullable : type.isNonNull = false) : Spelled depth (.nonNull type)

/-- A literal without variables that nests within a limit. -/
inductive Literal.Spelled : Nat → Literal → Prop
  | null {depth : Nat} : Spelled (depth + 1) .null
  | bool {depth : Nat} {b : Bool} : Spelled (depth + 1) (.bool b)
  | int {depth : Nat} {text : String} (own : Spells text [.int text]) :
      Spelled (depth + 1) (.int text)
  | float {depth : Nat} {text : String} (own : Spells text [.float text]) :
      Spelled (depth + 1) (.float text)
  | string {depth : Nat} {s : String} : Spelled (depth + 1) (.string s)
  | enum {depth : Nat} {n : Name} (own : IsName n) (notTrue : n ≠ "true") (notFalse : n ≠ "false")
      (notNull : n ≠ "null") : Spelled (depth + 1) (.enum n)
  | list {depth : Nat} {items : List Literal} (own : ∀ v ∈ items, v.Spelled depth) :
      Spelled (depth + 1) (.list items)
  | object {depth : Nat} {fields : List (Name × Literal)} (names : ∀ f ∈ fields, IsName f.1)
      (own : ∀ f ∈ fields, f.2.Spelled depth) : Spelled (depth + 1) (.object fields)

structure Directive.Spelled (d : Directive) : Prop where
  name : IsName d.name
  arguments : ∀ a ∈ d.arguments, IsName a.1 ∧ a.2.Spelled nestingLimit

structure InputField.Spelled (f : InputField) : Prop where
  name : IsName f.name
  type : f.type.Spelled nestingLimit
  default : ∀ v ∈ f.default, v.Spelled nestingLimit
  directives : ∀ d ∈ f.directives, d.Spelled

structure Field.Spelled (f : Field) : Prop where
  name : IsName f.name
  arguments : ∀ a ∈ f.arguments, a.Spelled
  type : f.type.Spelled nestingLimit
  directives : ∀ d ∈ f.directives, d.Spelled

structure EnumValue.Spelled (v : EnumValue) : Prop where
  name : IsName v.name
  word : v.name ≠ "true" ∧ v.name ≠ "false" ∧ v.name ≠ "null"
  directives : ∀ d ∈ v.directives, d.Spelled

def TypeBody.Spelled : TypeBody → Prop
  | .scalar => True
  | .object interfaces fields | .interface interfaces fields =>
    (∀ n ∈ interfaces, IsName n) ∧ ∀ f ∈ fields, f.Spelled
  | .union members => ∀ n ∈ members, IsName n
  | .enum values => ∀ v ∈ values, v.Spelled
  | .input fields => ∀ f ∈ fields, f.Spelled

structure TypeDefinition.Spelled (t : TypeDefinition) : Prop where
  name : IsName t.name
  directives : ∀ d ∈ t.directives, d.Spelled
  body : t.body.Spelled

structure SchemaDefinition.Spelled (s : SchemaDefinition) : Prop where
  directives : ∀ d ∈ s.directives, d.Spelled
  operations : ∀ o ∈ s.operations, IsName o.2

structure DirectiveDefinition.Spelled (d : DirectiveDefinition) : Prop where
  name : IsName d.name
  arguments : ∀ a ∈ d.arguments, a.Spelled
  somewhere : d.locations ≠ []
  locations : ∀ l ∈ d.locations, l ∈ Production.locationNames

/-- What the grammar accepts of the definitions of the type system, and that an operation selects
something. -/
def Definition.Spelled : Definition → Prop
  | .schema s | .schemaExtension s => s.Spelled
  | .type t | .typeExtension t => t.Spelled
  | .directive d => d.Spelled
  | .operation o => o.selections ≠ []
  | .fragment _ => True

namespace Token

theorem spelled_of_next? {cs rest : List Char} {t : Token} (next : next? cs = some (t, rest)) :
    t.Spelled := by
  rw [next?.eq_def] at next
  split at next
  · split at next
    · cases next
    · cases next
      trivial
  · obtain ⟨⟨s, more⟩, _, same⟩ := Option.map_eq_some_iff.mp next
    cases same
    trivial
  · cases next
    trivial
  · cases next
  · rename_i c rest _ _ _
    split at next
    · cases next
      trivial
    split at next
    · rename_i start
      cases next
      refine ⟨c, rest.takeWhile isNamePart, String.toList_ofList, start, fun x member => ?_⟩
      exact List.all_eq_true.mp List.all_takeWhile x member
    split at next
    · obtain ⟨text, rfl | rfl, spells⟩ := spells_number next
      · exact spells
      · exact spells
    · cases next

/-- Whether all lexemes are ones that their own texts are read as. -/
def Lexed (ts : List Token) : Prop := ∀ t ∈ ts, t.Spelled

theorem lexed_scanFrom {fuel : Nat} {acc ts : List Token} {cs : List Char} (own : Lexed acc)
    (scanned : scanFrom fuel acc cs = some ts) : Lexed ts := by
  induction fuel generalizing acc cs with
  | zero => cases scanned
  | succ fuel ih =>
    cases cs with
    | nil =>
      cases scanned
      exact fun t member => own t (List.mem_reverse.mp member)
    | cons c rest =>
      rw [scanFrom] at scanned
      split at scanned
      · exact ih own scanned
      split at scanned
      · exact ih own scanned
      split at scanned
      · cases scanned
      · rename_i next
        refine ih (fun x member => ?_) scanned
        rcases List.mem_cons.mp member with rfl | member
        · exact spelled_of_next? next
        · exact own x member

theorem lexed_of_scan? {text : String} {ts : List Token} (scanned : scan? text = some ts) :
    Lexed ts := lexed_scanFrom (by simp [Lexed]) scanned

end Token

namespace Production

variable {α β : Type} {P : α → Prop} {Q : β → Prop}

/-- Whether what a production makes of lexemes that are read from a text has a property. -/
def Yields (p : Production α) (P : α → Prop) : Prop :=
  ∀ ts x rest, Lexed ts → p ts = some (x, rest) → P x ∧ Lexed rest

theorem Yields.mono {p : Production α} {P' : α → Prop} (yields : p.Yields P)
    (weaker : ∀ x, P x → P' x) : p.Yields P' := by
  intro ts x rest lexed read
  obtain ⟨own, later⟩ := yields ts x rest lexed read
  exact ⟨weaker x own, later⟩

theorem Yields.pure {x : α} (own : P x) : Yields (pure x) P := by
  intro ts y rest lexed read
  cases read
  exact ⟨own, lexed⟩

theorem Yields.refuse : Yields refuse P := by
  intro ts x rest lexed read
  cases read

/-- A production that goes on unless something holds. -/
theorem Yields.unless {c : Bool} {next : Unit → Production α}
    (yields : c = false → (next ()).Yields P) :
    Yields (if c = true then Production.refuse >>= next else next ()) P := by
  split
  · intro ts x rest lexed read
    cases read
  · rename_i other
    exact yields (Bool.eq_false_iff.mpr other)

theorem Yields.bind {p : Production α} {f : α → Production β} (first : p.Yields P)
    (second : ∀ x, P x → (f x).Yields Q) : (p >>= f).Yields Q := by
  intro ts y rest lexed read
  obtain ⟨⟨x, more⟩, begun, read⟩ := Option.bind_eq_some_iff.mp read
  obtain ⟨own, later⟩ := first ts x more lexed begun
  exact second x own more y rest later read

theorem Yields.map {p : Production α} {f : α → β} (yields : p.Yields P)
    (image : ∀ x, P x → Q (f x)) : (f <$> p).Yields Q := by
  rw [map_eq_pure_bind]
  exact yields.bind fun x own => .pure (image x own)

theorem Yields.sized {p : Nat → Production α} (size : List Token → Nat)
    (yields : ∀ n, (p n).Yields P) : Yields (fun ts => p (size ts) ts) P :=
  fun ts => yields (size ts) ts

theorem yields_peek : Yields peek fun _ => True := by
  intro ts x rest lexed read
  cases read
  exact ⟨trivial, lexed⟩

theorem yields_isNext (t : Token) : (isNext t).Yields fun _ => True := by
  intro ts x rest lexed read
  cases read
  exact ⟨trivial, lexed⟩

theorem yields_expect (t : Token) : (expect t).Yields fun _ => t.Spelled := by
  intro ts x rest lexed read
  cases ts with
  | nil => cases read
  | cons u more =>
    rw [expect, Option.ite_none_right_eq_some] at read
    obtain ⟨rfl, same⟩ := read
    cases same
    exact ⟨lexed u List.mem_cons_self, fun t member => lexed t (List.mem_cons_of_mem _ member)⟩

theorem yields_optional (t : Token) : (optional t).Yields fun _ => True := by
  intro ts x rest lexed read
  refine ⟨trivial, ?_⟩
  cases ts with
  | nil =>
    cases read
    exact lexed
  | cons u more =>
    rw [optional] at read
    split at read
    · cases read
      exact fun t member => lexed t (List.mem_cons_of_mem _ member)
    · cases read
      exact lexed

theorem yields_name : Yields name IsName := by
  intro ts x rest lexed read
  rw [name.eq_def] at read
  split at read
  · cases read
    exact ⟨lexed (.name x) List.mem_cons_self, fun t member =>
      lexed t (List.mem_cons_of_mem _ member)⟩
  · cases read

theorem yields_description : Yields description fun _ => True := by
  intro ts x rest lexed read
  refine ⟨trivial, ?_⟩
  rw [description.eq_def] at read
  split at read
  · cases read
    exact fun t member => lexed t (List.mem_cons_of_mem _ member)
  · cases read
    exact lexed

/-! Lists of items. -/

theorem yields_itemsUntil {item : Production α} (yields : item.Yields P) (close : Char)
    (fuel : Nat) {acc : List α} (own : ∀ x ∈ acc, P x) :
    (itemsUntil close item fuel acc).Yields fun xs => ∀ x ∈ xs, P x := by
  induction fuel generalizing acc with
  | zero => exact .refuse
  | succ fuel ih =>
    refine (yields_optional _).bind fun closes _ => ?_
    split
    · exact .pure fun x member => own x (List.mem_reverse.mp member)
    · exact yields.bind fun x own_x => ih (List.forall_mem_cons.mpr ⟨own_x, own⟩)

theorem yields_enclosed {item : Production α} (yields : item.Yields P) (opening close : Char) :
    (enclosed opening close item).Yields fun xs => ∀ x ∈ xs, P x :=
  (yields_expect _).bind fun _ _ =>
    .sized (p := fun n => itemsUntil close item (n + 1) []) List.length
      fun n => yields_itemsUntil yields close (n + 1) (by simp)

theorem yields_enclosedSome {item : Production α} (yields : item.Yields P) (opening close : Char) :
    (enclosedSome opening close item).Yields fun xs => xs ≠ [] ∧ ∀ x ∈ xs, P x := by
  refine (yields_enclosed yields opening close).bind fun xs own => ?_
  split
  · exact .refuse
  · rename_i full
    exact .pure ⟨full, own⟩

theorem yields_enclosedIfAny {item : Production α} (yields : item.Yields P)
    (opening close : Char) :
    (enclosedIfAny opening close item).Yields fun xs => ∀ x ∈ xs, P x := by
  refine (yields_isNext _).bind fun opens _ => ?_
  split
  · exact (yields_enclosedSome yields opening close).mono fun _ => And.right
  · exact .pure (by simp)

theorem yields_separatedTail {item : Production α} (yields : item.Yields P) (separator : Char)
    (fuel : Nat) {acc : List α} (some_item : acc ≠ []) (own : ∀ x ∈ acc, P x) :
    (separatedTail separator item fuel acc).Yields fun xs => xs ≠ [] ∧ ∀ x ∈ xs, P x := by
  have done : acc.reverse ≠ [] ∧ ∀ x ∈ acc.reverse, P x := by
    constructor
    · simpa using some_item
    · exact fun x member => own x (List.mem_reverse.mp member)
  induction fuel generalizing acc with
  | zero => exact .pure done
  | succ fuel ih =>
    refine (yields_optional _).bind fun more _ => ?_
    split
    · refine yields.bind fun x own_x => ?_
      have longer : ∀ y ∈ x :: acc, P y := List.forall_mem_cons.mpr ⟨own_x, own⟩
      refine ih (by simp) longer ⟨by simp, fun y member => longer y (List.mem_reverse.mp member)⟩
    · exact .pure done

theorem yields_separated {item : Production α} (yields : item.Yields P) (separator : Char) :
    (separated separator item).Yields fun xs => xs ≠ [] ∧ ∀ x ∈ xs, P x := by
  refine (yields_optional _).bind fun _ _ => yields.bind fun x own => ?_
  exact .sized (p := fun n => separatedTail separator item n [x]) List.length
    fun n => yields_separatedTail yields separator n (by simp) (by simpa using own)

/-! The parts of definitions. -/

theorem yields_typeRef (depth : Nat) : (typeRef depth).Yields (TypeRef.Spelled depth) := by
  induction depth with
  | zero => exact .refuse
  | succ depth ih =>
    have marked (base : TypeRef) (own : base.Spelled (depth + 1))
        (nullable : base.isNonNull = false) : Yields (do
          if ← optional (.punctuator '!') then return .nonNull base
          return base) (TypeRef.Spelled (depth + 1)) := by
      refine (yields_optional _).bind fun marked _ => ?_
      split
      · exact .pure (.nonNull own nullable)
      · exact .pure own
    refine (yields_optional _).bind fun opens _ => ?_
    split
    · exact ih.bind fun item own => (yields_expect _).bind fun _ _ => marked _ (.list own) rfl
    · exact (yields_name.map (Q := fun t => t.Spelled (depth + 1) ∧ t.isNonNull = false)
        fun n own => ⟨.named own, rfl⟩).bind fun base own => marked _ own.1 own.2

theorem yields_literal (constant : Bool) (depth : Nat) :
    (literal constant depth).Yields fun v => constant = true → v.Spelled depth := by
  induction depth with
  | zero => exact .refuse
  | succ depth ih =>
    refine yields_peek.bind fun next _ => ?_
    split
    · exact (yields_enclosed ih _ _).map fun items own fixed =>
        .list fun v member => own v member fixed
    · have field : Yields (do
          let field ← name
          mark ':'
          return (field, ← literal constant depth))
          fun f => IsName f.1 ∧ (constant = true → f.2.Spelled depth) :=
        yields_name.bind fun n named => (yields_expect _).bind fun _ _ =>
          ih.bind fun v own => .pure ⟨named, own⟩
      exact (yields_enclosed field _ _).map fun fields own fixed =>
        .object (fun f member => (own f member).1) fun f member => (own f member).2 fixed
    · refine (yields_expect _).bind fun _ _ => yields_name.bind fun n _ => ?_
      split
      · exact .refuse
      · rename_i free
        exact .pure fun fixed => absurd fixed free
    · exact (yields_expect _).bind fun _ own => .pure fun _ => .int own
    · exact (yields_expect _).bind fun _ own => .pure fun _ => .float own
    · exact (yields_expect _).bind fun _ _ => .pure fun _ => .string
    · refine (yields_expect _).bind fun _ own => .pure fun _ => ?_
      split
      · exact .bool
      split
      · exact .bool
      split
      · exact .null
      · rename_i notTrue notFalse notNull
        exact .enum own (by simpa using notTrue) (by simpa using notFalse) (by simpa using notNull)
    · exact .refuse

theorem yields_arguments (constant : Bool) : (arguments constant).Yields fun args =>
    constant = true → ∀ a ∈ args, IsName a.1 ∧ a.2.Spelled nestingLimit := by
  have argument : Yields (do
      let argument ← name
      mark ':'
      return (argument, ← literal constant nestingLimit))
      fun a => IsName a.1 ∧ (constant = true → a.2.Spelled nestingLimit) :=
    yields_name.bind fun n named => (yields_expect _).bind fun _ _ =>
      (yields_literal constant nestingLimit).bind fun v own => .pure ⟨named, own⟩
  exact (yields_enclosedIfAny argument _ _).mono fun args own fixed a member =>
    ⟨(own a member).1, (own a member).2 fixed⟩

theorem yields_directives (constant : Bool) : (directives constant).Yields fun ds =>
    constant = true → ∀ d ∈ ds, d.Spelled := by
  have from_acc (fuel : Nat) {acc : List Directive} (own : constant = true → ∀ d ∈ acc, d.Spelled) :
      (directivesFrom constant fuel acc).Yields fun ds => constant = true → ∀ d ∈ ds, d.Spelled := by
    have done : constant = true → ∀ d ∈ acc.reverse, d.Spelled :=
      fun fixed d member => own fixed d (List.mem_reverse.mp member)
    induction fuel generalizing acc with
    | zero => exact .pure done
    | succ fuel ih =>
      refine (yields_optional _).bind fun more _ => ?_
      split
      · refine yields_name.bind fun n named => (yields_arguments constant).bind fun args given => ?_
        have longer (fixed : constant = true) :
            ∀ d ∈ (⟨n, args⟩ : Directive) :: acc, d.Spelled :=
          List.forall_mem_cons.mpr ⟨⟨named, given fixed⟩, own fixed⟩
        exact ih longer fun fixed d member => longer fixed d (List.mem_reverse.mp member)
      · exact .pure done
  exact .sized (p := fun n => directivesFrom constant n []) List.length
    fun n => from_acc n (by simp)

theorem yields_default : Yields default fun v => ∀ x ∈ v, x.Spelled nestingLimit := by
  refine (yields_optional _).bind fun given _ => ?_
  split
  · refine (yields_literal true nestingLimit).bind fun v own => .pure fun x member => ?_
    cases member
    exact own rfl
  · exact .pure (by simp)

theorem yields_inputField : Yields inputField InputField.Spelled :=
  yields_description.bind fun _ _ => yields_name.bind fun _ named =>
    (yields_expect _).bind fun _ _ => (yields_typeRef _).bind fun _ typed =>
      yields_default.bind fun _ given => (yields_directives true).bind fun _ applied =>
        .pure ⟨named, typed, given, applied rfl⟩

theorem yields_field : Yields field Field.Spelled :=
  yields_description.bind fun _ _ => yields_name.bind fun _ named =>
    (yields_enclosedIfAny yields_inputField _ _).bind fun _ args => (yields_expect _).bind fun _ _ =>
      (yields_typeRef _).bind fun _ typed => (yields_directives true).bind fun _ applied =>
        .pure ⟨named, args, typed, applied rfl⟩

theorem yields_enumValue : Yields enumValue EnumValue.Spelled := by
  refine yields_description.bind fun _ _ => yields_name.bind fun n named => ?_
  refine .unless fun other => (yields_directives true).bind fun _ applied =>
    .pure ⟨named, ?_, applied rfl⟩
  simpa [and_assoc] using other

theorem yields_interfaces : Yields interfaces fun ns => ∀ n ∈ ns, IsName n := by
  refine (yields_optional _).bind fun some_name _ => ?_
  split
  · exact (yields_separated yields_name _).mono fun _ own => own.2
  · exact .pure (by simp)

theorem yields_members : Yields members fun ns => ∀ n ∈ ns, IsName n := by
  refine (yields_optional _).bind fun some_name _ => ?_
  split
  · exact (yields_separated yields_name _).mono fun _ own => own.2
  · exact .pure (by simp)

theorem yields_rootOperation : Yields rootOperation fun o => IsName o.2 := by
  have kind : Yields operationKind fun _ => True := by
    refine yields_name.bind fun n _ => ?_
    split
    · exact .pure trivial
    split
    · exact .pure trivial
    split
    · exact .pure trivial
    · exact .refuse
  exact kind.bind fun _ _ => (yields_expect _).bind fun _ _ =>
    yields_name.bind fun _ named => .pure named

theorem yields_typeDefinition (described : Option String) (kind : String) :
    (typeDefinition described kind).Yields TypeDefinition.Spelled := by
  refine yields_name.bind fun n named => ?_
  have applied := yields_directives true
  split
  · exact applied.bind fun _ own => .pure ⟨named, own rfl, trivial⟩
  split
  · refine yields_interfaces.bind fun _ interfaces => applied.bind fun _ own =>
      (yields_enclosedIfAny yields_field _ _).bind fun _ fields => .pure ⟨named, own rfl, ?_⟩
    dsimp only
    split
    · exact ⟨interfaces, fields⟩
    · exact ⟨interfaces, fields⟩
  split
  · exact applied.bind fun _ own => yields_members.bind fun _ members =>
      .pure ⟨named, own rfl, members⟩
  split
  · exact applied.bind fun _ own => (yields_enclosedIfAny yields_enumValue _ _).bind fun _ values =>
      .pure ⟨named, own rfl, values⟩
  split
  · exact applied.bind fun _ own => (yields_enclosedIfAny yields_inputField _ _).bind fun _ fields =>
      .pure ⟨named, own rfl, fields⟩
  · exact .refuse

theorem yields_directiveDefinition (described : Option String) :
    (directiveDefinition described).Yields DirectiveDefinition.Spelled := by
  have place : Yields location fun n => n ∈ locationNames := by
    refine yields_name.bind fun n _ => ?_
    split
    · rename_i known
      exact .pure (List.contains_iff_mem.mp known)
    · exact .refuse
  exact (yields_expect _).bind fun _ _ => yields_name.bind fun _ named =>
    (yields_enclosedIfAny yields_inputField _ _).bind fun _ args => (yields_optional _).bind fun _ _ =>
      (yields_expect _).bind fun _ _ => (yields_separated place _).bind fun _ places =>
        .pure ⟨named, args, places.1, places.2⟩

/-! Operations and fragments leave what follows as it is. -/

theorem yields_selections (depth : Nat) : (selections depth).Yields (· ≠ []) := by
  have applied : (directives false).Yields fun _ => True :=
    (yields_directives false).mono fun _ _ => trivial
  have args : (arguments false).Yields fun _ => True :=
    (yields_arguments false).mono fun _ _ => trivial
  have named : Yields name fun _ => True := yields_name.mono fun _ _ => trivial
  induction depth with
  | zero => exact .refuse
  | succ depth ih =>
    refine (yields_enclosedSome (P := fun _ => True) ?_ _ _).mono fun _ => And.left
    refine (yields_optional _).bind fun spread _ => ?_
    split
    · refine yields_peek.bind fun next _ => ?_
      split
      · refine (yields_expect _).bind fun _ _ => ?_
        split
        · exact named.bind fun _ _ => applied.bind fun _ _ => ih.bind fun _ _ => .pure trivial
        · exact applied.bind fun _ _ => .pure trivial
      · exact applied.bind fun _ _ => ih.bind fun _ _ => .pure trivial
    · refine named.bind fun first _ => (yields_optional _).bind fun aliased _ => ?_
      have answer (answerName : Option Name) (selected : Name) : Yields (do
          let args ← arguments false
          let directives ← directives false
          let inner ← if ← isNext (.punctuator '\x7b') then selections depth else pure []
          return Selection.field answerName selected args directives inner) fun _ => True := by
        refine args.bind fun _ _ => applied.bind fun _ _ => (yields_isNext _).bind fun more _ => ?_
        split
        · exact ih.bind fun _ _ => .pure trivial
        · exact .bind (.pure trivial) fun _ (_ : True) => .pure trivial
      split
      · exact (named.map (Q := fun _ => True) fun _ _ => trivial).bind fun both _ =>
          answer both.1 both.2
      · exact answer none first

theorem yields_operation (kind : OperationKind) :
    (operation kind).Yields fun o => o.selections ≠ [] := by
  have selected (operationName : Option Name) : Yields (do
      let parameters ← enclosedIfAny '(' ')' variableDefinition
      let directives ← directives false
      return (⟨kind, operationName, parameters, directives, ← selections nestingLimit⟩ : Operation))
      fun o => o.selections ≠ [] := by
    have own : Yields variableDefinition fun _ => True :=
      (yields_expect _).bind fun _ _ => yields_name.bind fun _ _ => (yields_expect _).bind fun _ _ =>
        (yields_typeRef _).bind fun _ _ => yields_default.bind fun _ _ =>
          (yields_directives true).bind fun _ _ => .pure trivial
    exact (yields_enclosedIfAny own _ _).bind fun _ _ => (yields_directives false).bind fun _ _ =>
      (yields_selections _).bind fun _ full => .pure full
  refine yields_peek.bind fun next _ => ?_
  dsimp only
  split
  · rename_i n
    exact (yields_expect _).bind fun _ _ => selected (some n)
  · exact selected none

theorem yields_fragment : Yields fragment fun _ => True := by
  refine yields_name.bind fun n _ => ?_
  exact .unless fun _ => (yields_expect _).bind fun _ _ => yields_name.bind fun _ _ =>
    (yields_directives false).bind fun _ _ => (yields_selections _).bind fun _ _ => .pure trivial

theorem yields_extension : Yields extension Definition.Spelled := by
  refine yields_name.bind fun kind _ => ?_
  split
  · refine (yields_directives true).bind fun _ applied =>
      (yields_enclosedIfAny yields_rootOperation _ _).bind fun _ operations => ?_
    exact .unless fun _ => .pure (P := Definition.Spelled) ⟨applied rfl, operations⟩
  · refine (yields_typeDefinition none kind).bind fun t own => ?_
    exact .unless fun _ => .pure (P := Definition.Spelled) own

theorem yields_definition : Yields definition Definition.Spelled := by
  have operation (kind : OperationKind) : Yields (do
      return Definition.operation (← operation kind)) Definition.Spelled :=
    (yields_operation kind).bind fun _ full => .pure (P := Definition.Spelled) full
  have type (described : Option String) (kind : String) : Yields (do
      return Definition.type (← typeDefinition described kind)) Definition.Spelled :=
    (yields_typeDefinition described kind).bind fun _ own => .pure (P := Definition.Spelled) own
  refine yields_description.bind fun described _ => (yields_isNext _).bind fun _ _ => ?_
  split
  · exact (yields_selections _).bind fun _ full => .pure (P := Definition.Spelled) full
  refine yields_name.bind fun kind _ => ?_
  split
  · exact (yields_directives true).bind fun _ applied =>
      (yields_enclosedSome yields_rootOperation _ _).bind fun _ operations =>
        .pure (P := Definition.Spelled) ⟨applied rfl, operations.2⟩
  split
  · exact (yields_directiveDefinition described).bind fun _ own =>
      .pure (P := Definition.Spelled) own
  split
  · exact type described kind
  split
  · exact yields_extension
  split
  · exact yields_fragment.bind fun _ _ => .pure (P := Definition.Spelled) trivial
  split
  · exact operation .query
  split
  · exact operation .mutation
  split
  · exact operation .subscription
  · exact type none kind

theorem spelled_definitionsFrom {fuel : Nat} {acc d : Document} {ts : List Token}
    (own : ∀ x ∈ acc, x.Spelled) (lexed : Lexed ts) (read : definitionsFrom fuel acc ts = some d) :
    ∀ x ∈ d, x.Spelled := by
  induction fuel generalizing acc ts with
  | zero =>
    cases ts with
    | nil =>
      cases read
      exact fun x member => own x (List.mem_reverse.mp member)
    | cons t rest => cases read
  | succ fuel ih =>
    cases ts with
    | nil =>
      cases read
      exact fun x member => own x (List.mem_reverse.mp member)
    | cons t rest =>
      rw [definitionsFrom] at read
      split at read
      · cases read
      · rename_i x more first
        obtain ⟨spelled, later⟩ := yields_definition _ _ _ lexed first
        exact ih (List.forall_mem_cons.mpr ⟨spelled, own⟩) later read
      · simp

end Production

/-- What is read from a text is spelled as the grammar accepts it. -/
theorem Document.spelled_of_parse? {text : String} {d : Document} (read : parse? text = some d) :
    ∀ x ∈ d, x.Spelled := by
  obtain ⟨ts, scanned, read⟩ := Option.bind_eq_some_iff.mp read
  split at read
  · cases read
  · exact Production.spelled_definitionsFrom (by simp) (lexed_of_scan? scanned) read

end SchemaStitch.Sdl
