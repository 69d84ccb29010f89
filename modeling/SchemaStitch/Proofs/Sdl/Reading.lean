import SchemaStitch.Proofs.Sdl.Lexemes

/-! Lexemes are read back. Each production reads the lexemes of what it produces and leaves what
follows, unless that could go on with them. -/
namespace SchemaStitch.Sdl

open Token

/-- Whether a definition is a schema without root operations, as an extension with directives alone is
taken for. The grammar does not accept its text. -/
def Definition.isHollow : Definition → Bool
  | .schema s => s.operations.isEmpty
  | _ => false

namespace Production

variable {α β : Type}

/-! What the productions do with their first lexeme. -/

@[simp] theorem bind_apply (p : Production α) (f : α → Production β) (ts : List Token) :
    (p >>= f) ts = (p ts).bind fun (x, rest) => f x rest := rfl

@[simp] theorem pure_apply (x : α) (ts : List Token) : (pure x : Production α) ts = some (x, ts) := rfl

@[simp] theorem map_apply (f : α → β) (p : Production α) (ts : List Token) :
    (f <$> p) ts = (p ts).map fun (x, rest) => (f x, rest) := by
  rw [map_eq_pure_bind, bind_apply]
  cases p ts <;> rfl

@[simp] theorem branch_apply (c : Prop) [Decidable c] (p q : Production α) (ts : List Token) :
    (if c then p else q) ts = if c then p ts else q ts := by
  split <;> rfl

@[simp] theorem peek_cons (t : Token) (rest : List Token) : peek (t :: rest) = some (some t, t :: rest) :=
  rfl

@[simp] theorem isNext_apply (t : Token) (ts : List Token) :
    isNext t ts = some (ts.head? == some t, ts) := rfl

@[simp] theorem expect_cons (t : Token) (rest : List Token) : expect t (t :: rest) = some ((), rest) := by
  rw [expect, if_pos rfl]

@[simp] theorem mark_cons (c : Char) (rest : List Token) :
    mark c (.punctuator c :: rest) = some ((), rest) := expect_cons _ rest

@[simp] theorem word_cons (text : String) (rest : List Token) :
    word text (.name text :: rest) = some ((), rest) := expect_cons _ rest

@[simp] theorem name_cons (n : Name) (rest : List Token) : name (.name n :: rest) = some (n, rest) := rfl

@[simp] theorem optional_cons (t : Token) (rest : List Token) :
    optional t (t :: rest) = some (true, rest) := by
  rw [optional, if_pos rfl]

theorem optional_other {t : Token} {ts : List Token} (other : ts.head? ≠ some t) :
    optional t ts = some (false, ts) := by
  cases ts with
  | nil => rfl
  | cons u rest => rw [optional, if_neg (by simpa using other)]

theorem description_lexemes (described : Option String) (n : Name) (rest : List Token) :
    description (descriptionLexemes described ++ .name n :: rest) =
      some (described, .name n :: rest) := by
  cases described <;> rfl

/-! Lists of items. -/

/-- Items that a production reads one after the other, up to a closing punctuator. -/
structure ReadsAll (item : Production α) (lexemes : α → List Token) (close : Char)
    (xs : List α) : Prop where
  reads : ∀ x ∈ xs, ∀ t rest, (t = .punctuator close ∨ ∃ y ∈ xs, (lexemes y).head? = some t) →
    item (lexemes x ++ t :: rest) = some (x, t :: rest)
  starts : ∀ x ∈ xs, ∃ t ts, lexemes x = t :: ts ∧ t ≠ .punctuator close

section
variable {item : Production α} {lexemes : α → List Token} {close : Char} {xs : List α}

theorem ReadsAll.tail {x : α} (all : ReadsAll item lexemes close (x :: xs)) :
    ReadsAll item lexemes close xs := by
  constructor
  · intro y member t rest follows
    refine all.reads y (List.mem_cons_of_mem _ member) t rest (follows.imp_right ?_)
    rintro ⟨z, stands, first⟩
    exact ⟨z, List.mem_cons_of_mem _ stands, first⟩
  · exact fun y member => all.starts y (List.mem_cons_of_mem _ member)

theorem itemsUntil_lexemes (all : ReadsAll item lexemes close xs) {fuel : Nat}
    (enough : xs.length < fuel) (acc : List α) (rest : List Token) :
    itemsUntil close item fuel acc ((xs.map lexemes).flatten ++ .punctuator close :: rest) =
      some (acc.reverse ++ xs, rest) := by
  induction xs generalizing fuel acc with
  | nil =>
    obtain ⟨fuel, rfl⟩ := Nat.exists_eq_add_of_lt enough
    rw [itemsUntil, bind_apply, List.map_nil, List.flatten_nil, List.nil_append, optional_cons]
    simp [pure_apply]
  | cons x xs ih =>
    cases fuel with
    | zero => contradiction
    | succ fuel =>
      obtain ⟨t, ts, own, other⟩ := all.starts x List.mem_cons_self
      -- The next item starts, or the list ends.
      obtain ⟨u, more, later, follows⟩ : ∃ u more,
          (xs.map lexemes).flatten ++ .punctuator close :: rest = u :: more ∧
            (u = .punctuator close ∨ ∃ y ∈ x :: xs, (lexemes y).head? = some u) := by
        cases xs with
        | nil => exact ⟨_, _, rfl, Or.inl rfl⟩
        | cons y ys =>
          obtain ⟨u, us, starts, _⟩ := all.starts y (by simp)
          refine ⟨u, us ++ ((ys.map lexemes).flatten ++ .punctuator close :: rest), ?_, Or.inr ⟨y, ?_⟩⟩
          · simp [starts]
          · simp [starts]
      have read := all.reads x List.mem_cons_self u more follows
      have first : (lexemes x ++ u :: more).head? ≠ some (.punctuator close) := by
        simpa [own] using other
      rw [List.map_cons, List.flatten_cons, List.append_assoc, later, itemsUntil, bind_apply,
        optional_other first]
      change (item (lexemes x ++ u :: more)).bind _ = _
      rw [read]
      change itemsUntil close item fuel (x :: acc) (u :: more) = _
      rw [← later, ih all.tail (by simpa using enough)]
      simp

theorem length_le_flatten (starts : ∀ x ∈ xs, ∃ t ts, lexemes x = t :: ts) :
    xs.length ≤ (xs.map lexemes).flatten.length := by
  induction xs with
  | nil => simp
  | cons x xs ih =>
    obtain ⟨t, ts, own⟩ := starts x List.mem_cons_self
    have rest := ih fun y member => starts y (List.mem_cons_of_mem _ member)
    simp only [List.map_cons, List.flatten_cons, List.length_append, own, List.length_cons]
    omega

theorem enclosed_lexemes (opening : Char) (all : ReadsAll item lexemes close xs)
    (rest : List Token) :
    enclosed opening close item (enclosedLexemes opening close (xs.map lexemes) ++ rest) =
      some (xs, rest) := by
  have enough : xs.length < ((xs.map lexemes).flatten ++ .punctuator close :: rest).length + 1 := by
    have shorter : xs.length ≤ (xs.map lexemes).flatten.length := by
      refine length_le_flatten fun x member => ?_
      obtain ⟨t, ts, own, _⟩ := all.starts x member
      exact ⟨t, ts, own⟩
    simp only [List.length_append]
    omega
  have read := itemsUntil_lexemes all enough [] rest
  rw [enclosed, bind_apply, enclosedLexemes, List.cons_append, List.append_assoc, mark_cons]
  simpa using read

theorem enclosedSome_lexemes (opening : Char) (all : ReadsAll item lexemes close xs)
    (some_item : xs ≠ []) (rest : List Token) :
    enclosedSome opening close item (enclosedLexemes opening close (xs.map lexemes) ++ rest) =
      some (xs, rest) := by
  rw [enclosedSome, bind_apply, enclosed_lexemes opening all]
  cases xs with
  | nil => contradiction
  | cons x xs => rfl

theorem enclosedIfAny_lexemes {opening : Char} (all : ReadsAll item lexemes close xs)
    {rest : List Token} (other : xs = [] → rest.head? ≠ some (.punctuator opening)) :
    enclosedIfAny opening close item (enclosedLexemesIfAny opening close (xs.map lexemes) ++ rest) =
      some (xs, rest) := by
  rw [enclosedIfAny, bind_apply, isNext_apply, enclosedLexemesIfAny]
  by_cases none : xs = []
  · subst xs
    have free := other rfl
    simp [free, pure_apply]
  · rw [if_neg (by simpa using none), ← enclosedSome_lexemes opening all none rest]
    simp [enclosedLexemes]

end

theorem separatedLexemes_cons (separator : Char) (n : Name) (names : List Name) :
    separatedLexemes separator (n :: names) =
      .name n :: (names.map fun m => [.punctuator separator, .name m]).flatten := by
  induction names generalizing n with
  | nil => rfl
  | cons m names ih =>
    have tail := ih m
    simp only [separatedLexemes, List.map_cons, List.intercalate_cons_cons] at tail ⊢
    rw [tail]
    rfl

theorem separated_lexemes {item : Production Name} {separator : Char} {names : List Name}
    (reads : ∀ n ∈ names, ∀ rest, item (.name n :: rest) = some (n, rest)) (some_name : names ≠ [])
    {rest : List Token} (other : rest.head? ≠ some (.punctuator separator)) :
    separated separator item (separatedLexemes separator names ++ rest) = some (names, rest) := by
  have tail (names : List Name) (acc : List Name) (fuel : Nat) (enough : names.length ≤ fuel)
      (reads : ∀ n ∈ names, ∀ rest, item (.name n :: rest) = some (n, rest)) :
      separatedTail separator item fuel acc
        ((names.map fun m => [.punctuator separator, .name m]).flatten ++ rest) =
        some (acc.reverse ++ names, rest) := by
    induction names generalizing acc fuel with
    | nil =>
      cases fuel with
      | zero => simp [separatedTail, pure_apply]
      | succ fuel =>
        rw [separatedTail, bind_apply, List.map_nil, List.flatten_nil, List.nil_append,
          optional_other other]
        simp [pure_apply]
    | cons n names ih =>
      cases fuel with
      | zero => cases enough
      | succ fuel =>
        rw [separatedTail, bind_apply, List.map_cons, List.flatten_cons, List.append_assoc,
          List.cons_append, optional_cons]
        change (item (.name n :: _)).bind _ = _
        rw [reads n List.mem_cons_self]
        change separatedTail separator item fuel (n :: acc)
          ((names.map fun m => [Token.punctuator separator, .name m]).flatten ++ rest) = _
        rw [ih (n :: acc) fuel (by simpa using enough)
          fun m member => reads m (List.mem_cons_of_mem _ member)]
        simp
  cases names with
  | nil => contradiction
  | cons n names =>
    rw [separatedLexemes_cons, separated, bind_apply, List.cons_append, optional_other (by simp)]
    change (item (.name n :: _)).bind _ = _
    rw [reads n List.mem_cons_self]
    refine tail names [n] _ ?_ fun m member => reads m (List.mem_cons_of_mem _ member)
    rw [List.length_append]
    exact Nat.le_trans (length_le_flatten fun m _ => ⟨_, _, rfl⟩) (Nat.le_add_right _ _)

/-! Types, literals and directives. -/

theorem typeRef_lexemes {depth : Nat} {type : TypeRef} (spelled : type.Spelled depth)
    {rest : List Token} (unmarked : rest.head? ≠ some (.punctuator '!')) :
    typeRef depth (type.lexemes ++ rest) = some (type, rest) := by
  -- What is nullable is read with a mark after it too.
  have both : (∀ rest : List Token, rest.head? ≠ some (.punctuator '!') →
      typeRef depth (type.lexemes ++ rest) = some (type, rest)) ∧
      (type.isNonNull = false → ∀ rest,
        typeRef depth (type.lexemes ++ .punctuator '!' :: rest) = some (.nonNull type, rest)) := by
    clear unmarked
    induction spelled with
    | @named depth n own =>
      have base (rest : List Token) : typeRef (depth + 1) (.name n :: rest) =
          (optional (.punctuator '!') rest).bind fun (marked, rest) =>
            if marked = true then some (.nonNull (.named n), rest) else some (.named n, rest) := by
        rw [typeRef, bind_apply, optional_other (by simp)]
        simp
      constructor
      · intro rest unmarked
        simp [TypeRef.lexemes, base, optional_other unmarked]
      · intro _ rest
        simp [TypeRef.lexemes, base]
    | @list depth item own ih =>
      have base (rest : List Token) : typeRef (depth + 1) ((TypeRef.list item).lexemes ++ rest) =
          (optional (.punctuator '!') rest).bind fun (marked, rest) =>
            if marked = true then some (.nonNull (.list item), rest)
            else some (.list item, rest) := by
        have read := ih.1 (.punctuator ']' :: rest) (by simp)
        simp [typeRef, TypeRef.lexemes, read]
      constructor
      · intro rest unmarked
        simp [base, optional_other unmarked]
      · intro _ rest
        simp [base]
    | @nonNull depth type own nullable ih =>
      constructor
      · intro rest _
        have read := ih.2 nullable rest
        simpa [TypeRef.lexemes] using read
      · intro never
        cases never
  exact both.1 rest unmarked

/-- A literal starts with something other than a closing bracket. -/
theorem starts_literal {depth : Nat} {v : Literal} (spelled : v.Spelled depth) :
    ∃ t ts, v.lexemes = t :: ts ∧ t ≠ .punctuator ']' := by
  cases spelled with
  | list | object => exact ⟨_, _, rfl, by simp⟩
  | _ => exact ⟨_, _, rfl, by simp⟩

theorem literal_lexemes {depth : Nat} {v : Literal} (spelled : v.Spelled depth)
    (rest : List Token) : literal true depth (v.lexemes ++ rest) = some (v, rest) := by
  induction spelled generalizing rest with
  | null => simp [literal, Literal.lexemes]
  | @bool _ b => cases b <;> simp [literal, Literal.lexemes]
  | int own => simp [literal, Literal.lexemes]
  | float own => simp [literal, Literal.lexemes]
  | string => simp [literal, Literal.lexemes]
  | enum own notTrue notFalse notNull => simp [literal, Literal.lexemes, notTrue, notFalse, notNull]
  | @list depth items own ih =>
    have all : ReadsAll (literal true depth) Literal.lexemes ']' items :=
      ⟨fun v member t rest _ => ih v member (t :: rest), fun v member => starts_literal (own v member)⟩
    have read := enclosed_lexemes '[' all rest
    simpa [literal, Literal.lexemes, Literal.lexemesAll_eq, enclosedLexemes] using read
  | @object depth fields names own ih =>
    have all : ReadsAll (do
        let field ← name
        mark ':'
        return (field, ← literal true depth))
        (fun f => [.name f.1, .punctuator ':'] ++ f.2.lexemes) '\x7d' fields := by
      constructor
      · intro f member t rest _
        simp [ih f member]
      · exact fun f _ => ⟨_, _, rfl, by simp⟩
    have read := enclosed_lexemes '\x7b' all rest
    simpa [literal, Literal.lexemes, Literal.lexemesFields_eq, enclosedLexemes] using read

/-- Punctuators after a last member or argument. -/
def isClosing (c : Char) : Bool := c == ')' || c == '\x7d'

/-- Whether no directive, value or body starts with a lexeme: what stands between definitions or
between members. -/
def Closed (ts : List Token) : Prop := ∀ c, ts.head? = some (.punctuator c) → isClosing c = true

theorem Closed.other {ts : List Token} (closed : Closed ts) {c : Char}
    (opening : isClosing c = false) : ts.head? ≠ some (.punctuator c) := by
  intro first
  rw [closed c first] at opening
  cases opening

theorem arguments_lexemes {args : List (Name × Literal)}
    (own : ∀ a ∈ args, IsName a.1 ∧ a.2.Spelled nestingLimit) {rest : List Token}
    (other : rest.head? ≠ some (.punctuator '(')) :
    arguments true (enclosedLexemesIfAny '(' ')' (Literal.lexemesFields args) ++ rest) =
      some (args, rest) := by
  have all : ReadsAll (do
      let argument ← name
      mark ':'
      return (argument, ← literal true nestingLimit))
      (fun a => [.name a.1, .punctuator ':'] ++ a.2.lexemes) ')' args := by
    constructor
    · intro a member t rest _
      simp [literal_lexemes (own a member).2]
    · exact fun a _ => ⟨_, _, rfl, by simp⟩
  rw [Literal.lexemesFields_eq]
  exact enclosedIfAny_lexemes all fun _ => other

theorem directives_lexemes {ds : List Directive} (own : ∀ d ∈ ds, d.Spelled) {rest : List Token}
    (more : rest.head? ≠ some (.punctuator '@')) (args : rest.head? ≠ some (.punctuator '(')) :
    directives true (ds.flatMap Directive.lexemes ++ rest) = some (ds, rest) := by
  have from_acc (acc : List Directive) (fuel : Nat) (enough : ds.length ≤ fuel) :
      directivesFrom true fuel acc (ds.flatMap Directive.lexemes ++ rest) =
        some (acc.reverse ++ ds, rest) := by
    induction ds generalizing acc fuel with
    | nil =>
      cases fuel with
      | zero => simp [directivesFrom]
      | succ fuel => simp [directivesFrom, optional_other more]
    | cons d ds ih =>
      cases fuel with
      | zero => cases enough
      | succ fuel =>
        have free : (ds.flatMap Directive.lexemes ++ rest).head? ≠ some (.punctuator '(') := by
          cases ds with
          | nil => simpa using args
          | cons e ds => simp [Directive.lexemes]
        have read := arguments_lexemes (own d List.mem_cons_self).arguments free
        have later := ih (fun e member => own e (List.mem_cons_of_mem _ member)) (d :: acc) fuel
          (by simpa using enough)
        simp [directivesFrom, Directive.lexemes, read, later]
  have shorter : ds.length ≤ (ds.flatMap Directive.lexemes ++ rest).length := by
    rw [List.length_append, List.flatMap_def]
    exact Nat.le_trans (length_le_flatten fun d _ => ⟨_, _, rfl⟩) (Nat.le_add_right _ _)
  exact from_acc [] _ shorter

theorem directives_closed {ds : List Directive} (own : ∀ d ∈ ds, d.Spelled) {rest : List Token}
    (closed : Closed rest) : directives true (ds.flatMap Directive.lexemes ++ rest) = some (ds, rest) :=
  directives_lexemes own (closed.other rfl) (closed.other rfl)

/-- What follows directives is what follows them if there are none. -/
theorem head_directives {ds : List Directive} {rest : List Token} {t : Token}
    (other : t ≠ .punctuator '@') (first : rest.head? ≠ some t) :
    (ds.flatMap Directive.lexemes ++ rest).head? ≠ some t := by
  cases ds with
  | nil => simpa using first
  | cons d ds => simpa [Directive.lexemes] using Ne.symm other

theorem default_lexemes {v : Option Literal} (own : ∀ x ∈ v, x.Spelled nestingLimit)
    {rest : List Token} (other : rest.head? ≠ some (.punctuator '=')) :
    default (defaultLexemes v ++ rest) = some (v, rest) := by
  cases v with
  | none => simp [default, defaultLexemes, optional_other other]
  | some v => simp [default, defaultLexemes, literal_lexemes (own v rfl)]

/-! Members. -/

theorem inputField_lexemes {f : InputField} (spelled : f.Spelled) {rest : List Token}
    (closed : Closed rest) : inputField (f.lexemes ++ rest) = some (f, rest) := by
  have applied := directives_closed spelled.directives closed
  have given : default (defaultLexemes f.default ++ (f.directives.flatMap Directive.lexemes ++ rest)) =
      some (f.default, f.directives.flatMap Directive.lexemes ++ rest) :=
    default_lexemes spelled.default
      (head_directives (by decide) (closed.other rfl))
  have typed : typeRef nestingLimit (f.type.lexemes ++
      (defaultLexemes f.default ++ (f.directives.flatMap Directive.lexemes ++ rest))) =
      some (f.type, defaultLexemes f.default ++ (f.directives.flatMap Directive.lexemes ++ rest)) := by
    refine typeRef_lexemes spelled.type ?_
    cases f.default with
    | none => exact head_directives (by decide) (closed.other rfl)
    | some v => simp [defaultLexemes]
  simp [inputField, InputField.lexemes, description_lexemes, typed, given, applied]

/-- Lexemes that start a member of a body: its description or its name. -/
def Begins : Token → Prop
  | .string _ | .name _ => True
  | _ => False

theorem readsAll_members {item : Production α} {lexemes : α → List Token} {close : Char}
    {xs : List α} (bracket : isClosing close = true)
    (reads : ∀ x ∈ xs, ∀ rest, Closed rest → item (lexemes x ++ rest) = some (x, rest))
    (starts : ∀ x ∈ xs, ∃ t ts, lexemes x = t :: ts ∧ Begins t) :
    ReadsAll item lexemes close xs := by
  constructor
  · intro x member t rest follows
    refine reads x member (t :: rest) fun c first => ?_
    cases first
    rcases follows with same | ⟨y, stands, same⟩
    · cases same
      exact bracket
    · obtain ⟨u, us, own, begins⟩ := starts y stands
      rw [own] at same
      cases same
      cases begins
  · intro x member
    obtain ⟨t, ts, own, begins⟩ := starts x member
    refine ⟨t, ts, own, ?_⟩
    rintro rfl
    cases begins

theorem starts_described (described : Option String) (n : Name) (more : List Token) :
    ∃ t ts, descriptionLexemes described ++ ([.name n] ++ more) = t :: ts ∧ Begins t := by
  cases described with
  | none => exact ⟨_, _, rfl, trivial⟩
  | some s => exact ⟨_, _, rfl, trivial⟩

theorem readsAll_inputFields {close : Char} (bracket : isClosing close = true)
    {fs : List InputField} (own : ∀ f ∈ fs, f.Spelled) :
    ReadsAll inputField InputField.lexemes close fs := by
  refine readsAll_members bracket (fun f member rest => inputField_lexemes (own f member)) ?_
  intro f member
  simp only [InputField.lexemes, List.append_assoc]
  exact starts_described _ _ _

theorem field_lexemes {f : Field} (spelled : f.Spelled) {rest : List Token}
    (closed : Closed rest) : field (f.lexemes ++ rest) = some (f, rest) := by
  have applied := directives_closed spelled.directives closed
  have typed : typeRef nestingLimit (f.type.lexemes ++
      (f.directives.flatMap Directive.lexemes ++ rest)) =
      some (f.type, f.directives.flatMap Directive.lexemes ++ rest) :=
    typeRef_lexemes spelled.type
      (head_directives (by decide) (closed.other rfl))
  have args (more : List Token) : enclosedIfAny '(' ')' inputField
      (enclosedLexemesIfAny '(' ')' (f.arguments.map InputField.lexemes) ++
        .punctuator ':' :: more) = some (f.arguments, .punctuator ':' :: more) :=
    enclosedIfAny_lexemes (readsAll_inputFields rfl spelled.arguments) (by simp)
  simp [field, Field.lexemes, description_lexemes, args, typed, applied]

theorem readsAll_fields {fs : List Field} (own : ∀ f ∈ fs, f.Spelled) :
    ReadsAll field Field.lexemes '\x7d' fs := by
  refine readsAll_members rfl (fun f member rest => field_lexemes (own f member)) ?_
  intro f member
  simp only [Field.lexemes, List.append_assoc]
  exact starts_described _ _ _

theorem readsAll_enumValues {vs : List EnumValue} (own : ∀ v ∈ vs, v.Spelled) :
    ReadsAll enumValue EnumValue.lexemes '\x7d' vs := by
  refine readsAll_members rfl (fun v member rest closed => ?_) ?_
  · have applied := directives_closed (own v member).directives closed
    obtain ⟨notTrue, notFalse, notNull⟩ := (own v member).word
    simp [enumValue, EnumValue.lexemes, description_lexemes, notTrue, notFalse, notNull, applied]
  · intro v member
    simp only [EnumValue.lexemes, List.append_assoc]
    exact starts_described _ _ _

theorem readsAll_operations (os : List (OperationKind × Name)) :
    ReadsAll rootOperation operationLexemes '\x7d' os := by
  refine readsAll_members rfl (fun o member rest _ => ?_) ?_
  · obtain ⟨kind, root⟩ := o
    cases kind <;> simp [rootOperation, operationKind, operationLexemes, OperationKind.word]
  · exact fun o _ => ⟨_, _, rfl, trivial⟩

/-! Definitions. What follows one is another one. -/

theorem interfaces_lexemes (names : List Name) {rest : List Token}
    (other : names = [] → rest.head? ≠ some (.name "implements"))
    (more : rest.head? ≠ some (.punctuator '&')) :
    interfaces (interfaceLexemes names ++ rest) = some (names, rest) := by
  rw [interfaces, interfaceLexemes, bind_apply]
  split
  · rename_i none
    obtain rfl := List.isEmpty_iff.mp none
    simp [optional_other (other rfl)]
  · rename_i full
    have read := separated_lexemes (fun n _ => name_cons n) (by simpa using full) more
    simpa using read

theorem members_lexemes (names : List Name) {rest : List Token}
    (other : names = [] → rest.head? ≠ some (.punctuator '='))
    (more : rest.head? ≠ some (.punctuator '|')) :
    members (memberLexemes names ++ rest) = some (names, rest) := by
  rw [members, memberLexemes, bind_apply]
  split
  · rename_i none
    obtain rfl := List.isEmpty_iff.mp none
    simp [optional_other (other rfl)]
  · rename_i full
    have read := separated_lexemes (fun n _ => name_cons n) (by simpa using full) more
    simpa using read

/-- What can follow a definition. -/
structure Apart (ts : List Token) : Prop where
  closed : Closed ts
  word : ts.head? ≠ some (.name "implements")

theorem head_body {items : List (List Token)} {rest : List Token} {t : Token}
    (other : t ≠ .punctuator '\x7b') (first : rest.head? ≠ some t) :
    (enclosedLexemesIfAny '\x7b' '\x7d' items ++ rest).head? ≠ some t := by
  rw [enclosedLexemesIfAny]
  split
  · exact first
  · simpa [enclosedLexemes] using Ne.symm other

/-- The word that starts a definition of a kind of type. -/
def kindWord : TypeKind → String
  | .scalar => "scalar"
  | .object => "type"
  | .interface => "interface"
  | .union => "union"
  | .enum => "enum"
  | .input => "input"

section
variable {rest : List Token}

theorem body_lexemes {item : Production α} {lexemes : α → List Token} {xs : List α}
    (all : ReadsAll item lexemes '\x7d' xs) (apart : Apart rest) :
    enclosedIfAny '\x7b' '\x7d' item (enclosedLexemesIfAny '\x7b' '\x7d' (xs.map lexemes) ++ rest) =
      some (xs, rest) :=
  enclosedIfAny_lexemes all fun _ => apart.closed.other rfl

theorem directives_body {ds : List Directive} (own : ∀ d ∈ ds, d.Spelled) (apart : Apart rest)
    (items : List (List Token)) :
    directives true (ds.flatMap Directive.lexemes ++
      (enclosedLexemesIfAny '\x7b' '\x7d' items ++ rest)) =
      some (ds, enclosedLexemesIfAny '\x7b' '\x7d' items ++ rest) :=
  directives_lexemes own (head_body (by decide) (apart.closed.other rfl))
    (head_body (by decide) (apart.closed.other rfl))

theorem interfaces_body {names : List Name} {ds : List Directive} (apart : Apart rest)
    (items : List (List Token)) :
    interfaces (interfaceLexemes names ++ (ds.flatMap Directive.lexemes ++
      (enclosedLexemesIfAny '\x7b' '\x7d' items ++ rest))) =
      some (names, ds.flatMap Directive.lexemes ++
        (enclosedLexemesIfAny '\x7b' '\x7d' items ++ rest)) :=
  interfaces_lexemes names
    (fun _ => head_directives (by simp) (head_body (by simp) apart.word))
    (head_directives (by decide) (head_body (by decide)
      (apart.closed.other rfl)))

end

theorem typeDefinition_lexemes {t : TypeDefinition} (spelled : t.Spelled) :
    ∃ ts, t.lexemes = .name (kindWord t.body.kind) :: ts ∧ ∀ described rest, Apart rest →
      typeDefinition described (kindWord t.body.kind) (ts ++ rest) =
        some ({ t with description := described }, rest) := by
  have own := spelled.body
  have applied := spelled.directives
  obtain ⟨description, name, ds, body⟩ := t
  cases body with
  | scalar =>
    refine ⟨_, rfl, fun described rest apart => ?_⟩
    have read := directives_closed applied apart.closed
    simp [typeDefinition, kindWord, TypeBody.kind, read]
  | object is fs =>
    refine ⟨_, rfl, fun described rest apart => ?_⟩
    have fields := body_lexemes (readsAll_fields own.2) apart
    simp [typeDefinition, kindWord, TypeBody.kind, interfaces_body apart,
      directives_body applied apart, fields]
  | interface is fs =>
    refine ⟨_, rfl, fun described rest apart => ?_⟩
    have fields := body_lexemes (readsAll_fields own.2) apart
    simp [typeDefinition, kindWord, TypeBody.kind, interfaces_body apart,
      directives_body applied apart, fields]
  | union ms =>
    refine ⟨_, rfl, fun described rest apart => ?_⟩
    have first (c : Char) (sign : c ≠ '=') (opening : isClosing c = false) :
        (memberLexemes ms ++ rest).head? ≠ some (.punctuator c) := by
      rw [memberLexemes]
      split
      · exact apart.closed.other opening
      · simpa using Ne.symm sign
    have read := directives_lexemes applied (first '@' (by decide) rfl)
      (first '(' (by decide) rfl)
    have names := members_lexemes ms (fun _ => apart.closed.other (c := '=') rfl)
      (apart.closed.other rfl)
    simp [typeDefinition, kindWord, TypeBody.kind, read, names]
  | enum vs =>
    refine ⟨_, rfl, fun described rest apart => ?_⟩
    have values := body_lexemes (readsAll_enumValues own) apart
    simp [typeDefinition, kindWord, TypeBody.kind, directives_body applied apart, values]
  | input fs =>
    refine ⟨_, rfl, fun described rest apart => ?_⟩
    have fields := body_lexemes (readsAll_inputFields rfl own) apart
    simp [typeDefinition, kindWord, TypeBody.kind, directives_body applied apart, fields]

theorem directiveDefinition_lexemes {d : DirectiveDefinition} (spelled : d.Spelled) :
    ∃ ts, d.lexemes = descriptionLexemes d.description ++ .name "directive" :: ts ∧
      ∀ rest, Apart rest → directiveDefinition d.description (ts ++ rest) = some (d, rest) := by
  refine ⟨_, by simp only [DirectiveDefinition.lexemes, List.append_assoc, List.cons_append]; rfl,
    fun rest apart => ?_⟩
  have args (n : Name) (more : List Token) : enclosedIfAny '(' ')' inputField
      (enclosedLexemesIfAny '(' ')' (d.arguments.map InputField.lexemes) ++ .name n :: more) =
        some (d.arguments, .name n :: more) :=
    enclosedIfAny_lexemes (readsAll_inputFields rfl spelled.arguments) (by simp)
  have place : ∀ n ∈ d.locations, ∀ rest, location (.name n :: rest) = some (n, rest) := by
    intro n member rest
    simp [location, spelled.locations n member]
  have places := separated_lexemes place spelled.somewhere
    (apart.closed.other (c := '|') rfl)
  obtain ⟨description, name, arguments, repeatable, locations⟩ := d
  cases repeatable with
  | false =>
    have other : (Token.name "on" :: (separatedLexemes '|' locations ++ rest)).head? ≠
        some (.name "repeatable") := by simp
    simp [directiveDefinition, args, optional_other other, places]
  | true => simp [directiveDefinition, args, places]

theorem schema_lexemes {s : SchemaDefinition} (spelled : s.Spelled) (rest : List Token) :
    directives true (s.directives.flatMap Directive.lexemes ++
      (enclosedLexemes '\x7b' '\x7d' (s.operations.map operationLexemes) ++ rest)) =
      some (s.directives,
        enclosedLexemes '\x7b' '\x7d' (s.operations.map operationLexemes) ++ rest) :=
  directives_lexemes spelled.directives (by simp [enclosedLexemes]) (by simp [enclosedLexemes])

theorem definition_lexemes {d : Definition} (spelled : d.Spelled) (lasting : d.Lasting)
    (full : d.isHollow = false) {rest : List Token} (apart : Apart rest) :
    definition (d.lexemes ++ rest) = some (d, rest) := by
  cases d with
  | schema s =>
    have some_root : s.operations ≠ [] := by simpa [Definition.isHollow] using full
    have roots := enclosedSome_lexemes '\x7b' (readsAll_operations s.operations) some_root rest
    simp [definition, Definition.lexemes, SchemaDefinition.lexemes, description_lexemes,
      schema_lexemes spelled, roots]
  | type t =>
    obtain ⟨ts, own, read⟩ := typeDefinition_lexemes spelled
    have words : ∀ kind, kindWord kind ≠ "schema" ∧ kindWord kind ≠ "directive" ∧
        kindWord kind ≠ "extend" ∧ kindWord kind ≠ "fragment" ∧ kindWord kind ≠ "query" ∧
        kindWord kind ≠ "mutation" ∧ kindWord kind ≠ "subscription" := by
      intro kind
      cases kind <;> decide
    have opened (described : Option String) := read described rest apart
    obtain ⟨description, name, ds, body⟩ := t
    cases description <;>
      simp [definition, Definition.lexemes, own, description_lexemes, words, opened]
  | directive d =>
    obtain ⟨ts, own, read⟩ := directiveDefinition_lexemes spelled
    have opened := read rest apart
    simp [definition, Definition.lexemes, own, description_lexemes, opened]
  | _ => cases lasting

theorem definition_hollow {d : Definition} (spelled : d.Spelled) (hollow : d.isHollow = true)
    (rest : List Token) : definition (d.lexemes ++ rest) = none := by
  cases d with
  | schema s =>
    have none : s.operations = [] := by simpa [Definition.isHollow] using hollow
    have read := schema_lexemes spelled rest
    have empty := enclosed_lexemes '\x7b' (readsAll_operations []) rest
    simp only [none, List.map_nil] at read empty
    simp [definition, Definition.lexemes, SchemaDefinition.lexemes, description_lexemes, none,
      read, enclosedSome, empty]
    rfl
  | _ => cases hollow

/-! Documents. -/

theorem starts_definition {d : Definition} (spelled : d.Spelled) (lasting : d.Lasting) :
    ∃ t ts, d.lexemes = t :: ts ∧ Begins t ∧ t ≠ .name "implements" := by
  have described (described : Option String) (word : String) (other : word ≠ "implements")
      (more : List Token) : ∃ t ts, descriptionLexemes described ++ .name word :: more = t :: ts ∧
        Begins t ∧ t ≠ .name "implements" := by
    cases described with
    | none => exact ⟨_, _, rfl, trivial, by simpa using other⟩
    | some s => exact ⟨_, _, rfl, trivial, by simp⟩
  cases d with
  | schema s =>
    simp only [Definition.lexemes, SchemaDefinition.lexemes, List.append_assoc]
    exact described _ "schema" (by decide) _
  | type t =>
    obtain ⟨ts, own, _⟩ := typeDefinition_lexemes spelled
    simp only [Definition.lexemes, own]
    exact described _ _ (by cases t.body.kind <;> decide) _
  | directive d =>
    simp only [Definition.lexemes, DirectiveDefinition.lexemes, List.append_assoc]
    exact described _ "directive" (by decide) _
  | _ => cases lasting

theorem apart_nil : Apart [] := ⟨by simp [Closed], by simp⟩

theorem apart_lexemes {d : Document} (spelled : ∀ x ∈ d, x.Spelled)
    (lasting : ∀ x ∈ d, x.Lasting) {after : List Token} (apart : Apart after) :
    Apart (d.flatMap Definition.lexemes ++ after) := by
  cases d with
  | nil => exact apart
  | cons x rest =>
    obtain ⟨t, ts, own, begins, other⟩ :=
      starts_definition (spelled x List.mem_cons_self) (lasting x List.mem_cons_self)
    rw [List.flatMap_cons, own]
    refine ⟨fun c first => ?_, by simpa using other⟩
    cases first
    cases begins

/-- One definition is read from the front, unless it is a hollow schema. -/
theorem definitionsFrom_cons {x : Definition} (spelled : x.Spelled) (lasting : x.Lasting)
    {rest : List Token} (apart : Apart rest) (fuel : Nat) (acc : Document) :
    definitionsFrom (fuel + 1) acc (x.lexemes ++ rest) =
      if x.isHollow then none else definitionsFrom fuel (x :: acc) rest := by
  obtain ⟨t, ts, starts, _⟩ := starts_definition spelled lasting
  have step : definitionsFrom (fuel + 1) acc (x.lexemes ++ rest) =
      (definition (x.lexemes ++ rest)).bind
        fun found => definitionsFrom fuel (found.1 :: acc) found.2 := by
    rw [starts, List.cons_append, definitionsFrom]
    · cases definition (t :: (ts ++ rest)) <;> rfl
    · exact List.cons_ne_nil _ _
  rw [step]
  cases hollow : x.isHollow with
  | true =>
    rw [definition_hollow spelled hollow]
    rfl
  | false =>
    rw [definition_lexemes spelled lasting hollow apart]
    rfl

theorem definitionsFrom_lexemes {d : Document} (spelled : ∀ x ∈ d, x.Spelled)
    (lasting : ∀ x ∈ d, x.Lasting) {fuel : Nat} (enough : d.length ≤ fuel) (acc : Document) :
    definitionsFrom fuel acc (d.flatMap Definition.lexemes) =
      if d.any Definition.isHollow then none else some (acc.reverse ++ d) := by
  induction d generalizing fuel acc with
  | nil => simp [definitionsFrom]
  | cons x rest ih =>
    cases fuel with
    | zero => cases enough
    | succ fuel =>
      have later_spelled (y : Definition) (member : y ∈ rest) :=
        spelled y (List.mem_cons_of_mem _ member)
      have later_lasting (y : Definition) (member : y ∈ rest) :=
        lasting y (List.mem_cons_of_mem _ member)
      have later := ih later_spelled later_lasting (Nat.le_of_succ_le_succ enough) (x :: acc)
      have apart := apart_lexemes later_spelled later_lasting apart_nil
      rw [List.append_nil] at apart
      rw [List.flatMap_cons, definitionsFrom_cons (spelled x List.mem_cons_self)
        (lasting x List.mem_cons_self) apart, later, List.any_cons]
      cases x.isHollow <;> simp

end Production

/-- The text of a document of the type system reads as the document, unless a schema in it is hollow
or there is nothing in it. -/
theorem Document.parse?_of_spells {d : Document} (spelled : ∀ x ∈ d, x.Spelled)
    (lasting : ∀ x ∈ d, x.Lasting) {text : String}
    (spells : Token.scan? text = some (d.flatMap Definition.lexemes)) :
    parse? text = if d.isEmpty || d.any Definition.isHollow then none else some d := by
  have enough : d.length ≤ (d.flatMap Definition.lexemes).length := by
    rw [List.flatMap_def]
    refine Production.length_le_flatten fun x member => ?_
    obtain ⟨t, ts, own, _⟩ := Production.starts_definition (spelled x member) (lasting x member)
    exact ⟨t, ts, own⟩
  have read := Production.definitionsFrom_lexemes spelled lasting enough []
  rw [parse?, spells]
  cases d with
  | nil => rfl
  | cons x rest =>
    obtain ⟨t, ts, own, _⟩ :=
      Production.starts_definition (spelled x List.mem_cons_self) (lasting x List.mem_cons_self)
    have full : ((x :: rest).flatMap Definition.lexemes).isEmpty = false := by simp [own]
    change (if ((x :: rest).flatMap Definition.lexemes).isEmpty = true then none else _) = _
    rw [full]
    simpa using read

end SchemaStitch.Sdl
