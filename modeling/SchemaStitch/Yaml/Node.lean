/-!
YAML documents as configurations use them: scalars with their style and tag, sequences and mappings,
in block or flow style, with comments, one document to a text. Anchored nodes can be repeated by
alias. Block scalars and quoted texts over several lines are not read.
-/
namespace SchemaStitch.Yaml

/-- A node. A scalar is plain if it was not quoted. -/
inductive Node where
  | scalar (text : String) (plain : Bool) (tag : Option String)
  | sequence (items : List Node)
  | mapping (pairs : List (Node × Node))
  deriving Inhabited

/-- Nodes that were given a name. -/
abbrev Anchors := List (String × Node)

/-- Blanks within a line. -/
def isBlank (c : Char) : Bool := c == ' ' || c == '\t'

/-- Drops blanks at the front. -/
def skip (cs : List Char) : List Char := cs.dropWhile isBlank

/-- Drops blanks at both ends. -/
def trim (cs : List Char) : List Char := (skip (skip cs).reverse).reverse

/-- The characters that begin or end parts of a flow collection. -/
def isFlowMark (c : Char) : Bool := [',', '[', ']', '\x7b', '\x7d'].contains c

/-- A line without its comment. `before` is the character in front and `quote` the open quote. -/
def uncomment (before : Char) (quote : Option Char) : List Char → List Char
  | [] => []
  | c :: rest =>
    match quote with
    | some q => c :: uncomment c (if c == q then none else some q) rest
    | none =>
      if c == '#' && isBlank before then []
      else
        let opens := (c == '"' || c == '\'') && (isBlank before || isFlowMark before)
        c :: uncomment c (if opens then some c else none) rest

/-- The lines of a text. -/
def lines : List Char → List (List Char)
  | [] => [[]]
  | '\r' :: '\n' :: rest => [] :: lines rest
  | c :: rest =>
    if c == '\n' || c == '\r' then [] :: lines rest
    else match lines rest with
      | [] => [[c]]
      | line :: more => (c :: line) :: more

/-- A line that holds something: how far it is indented, and its contents. -/
structure Line where
  indent : Nat
  text : List Char
  deriving Inhabited

/-- The lines that hold something, comments taken off; a tab must not indent. -/
def contents? (cs : List Char) : Option (List Line) :=
  (lines cs).foldr (fun l acc => do
    let rest ← acc
    let l := uncomment ' ' none l
    let text := trim l
    if text.isEmpty then return rest
    let margin := l.takeWhile isBlank
    if margin.contains '\t' then none
    return ⟨margin.length, text⟩ :: rest) (some [])

/-- The characters of a quoted text after its opening quote, and the rest. -/
def quotedTail (quote : Char) (acc : List Char) : List Char → Option (List Char × List Char)
  | [] => none
  | '\'' :: '\'' :: rest =>
    if quote == '\'' then quotedTail quote ('\'' :: acc) rest
    else quotedTail quote ('\'' :: '\'' :: acc) rest
  | '\\' :: c :: rest =>
    if quote == '\'' then
      if c == '\'' then some (('\\' :: acc).reverse, rest)
      else quotedTail quote (c :: '\\' :: acc) rest
    else
      let value : Option Char :=
        if c == 'n' then some '\n' else if c == 't' then some '\t' else if c == 'r' then some '\r'
        else if c == '"' || c == '\\' || c == '/' || c == ' ' then some c else none
      match value with
      | some v => quotedTail quote (v :: acc) rest
      | none => none
  | c :: rest => if c == quote then some (acc.reverse, rest) else quotedTail quote (c :: acc) rest

/-- A plain text at the front of some characters and the rest: it ends before a colon with a blank
after it, and in a flow collection before a mark. -/
def plainText (inFlow : Bool) : List Char → List Char × List Char
  | [] => ([], [])
  | ':' :: rest =>
    let ends := match rest with
      | [] => true
      | c :: _ => isBlank c || (inFlow && isFlowMark c)
    if ends then ([], ':' :: rest)
    else let (text, rest) := plainText inFlow rest; (':' :: text, rest)
  | c :: rest =>
    if inFlow && isFlowMark c then ([], c :: rest)
    else let (text, rest) := plainText inFlow rest; (c :: text, rest)

/-- Whether plain text can begin with a character. -/
def beginsPlain : List Char → Bool
  | [] => false
  | c :: rest =>
    if c == '-' || c == '?' || c == ':' then
      match rest with
      | [] => false
      | d :: _ => !isBlank d
    else
      !([',', '[', ']', '\x7b', '\x7d', '#', '&', '*', '!', '|', '>', '\'', '"', '%', '@',
        '\x60'].contains c)

/-- Name and tag in front of a node. -/
structure Properties where
  anchor : Option String
  tag : Option String
  deriving Inhabited

/-- Reads name and tag in front of a node. -/
def properties (inFlow : Bool) : Nat → Properties → List Char → Properties × List Char
  | 0, p, cs => (p, cs)
  | fuel + 1, p, cs =>
    let word (cs : List Char) : List Char × List Char :=
      let ends (c : Char) : Bool := isBlank c || (inFlow && isFlowMark c)
      (cs.takeWhile fun c => !ends c, cs.dropWhile fun c => !ends c)
    match skip cs with
    | '&' :: rest =>
      let (name, rest) := word rest
      properties inFlow fuel { p with anchor := some (String.ofList name) } rest
    | '!' :: rest =>
      let (tag, rest) := word rest
      properties inFlow fuel { p with tag := some (String.ofList ('!' :: tag)) } rest
    | cs => (p, cs)

/-- Remembers a node under the name it was given. -/
def remember (p : Properties) (node : Node) (anchors : Anchors) : Anchors :=
  match p.anchor with
  | some name => (name, node) :: anchors
  | none => anchors

/-- A scalar, quoted or plain, or an alias, at the front of some characters. -/
def scalar? (inFlow : Bool) (tag : Option String) (anchors : Anchors) :
    List Char → Option (Node × List Char)
  | '"' :: rest =>
    (quotedTail '"' [] rest).map fun (s, rest) => (.scalar (String.ofList s) false tag, rest)
  | '\'' :: rest =>
    (quotedTail '\'' [] rest).map fun (s, rest) => (.scalar (String.ofList s) false tag, rest)
  | '*' :: rest =>
    let ends (c : Char) : Bool := isBlank c || (inFlow && isFlowMark c)
    let name := String.ofList (rest.takeWhile fun c => !ends c)
    (anchors.lookup name).map fun node => (node, rest.dropWhile fun c => !ends c)
  | cs =>
    if beginsPlain cs then
      let (text, rest) := plainText inFlow cs
      some (.scalar (String.ofList (trim text)) true tag, rest)
    else none

mutual

/-- A node inside a flow collection. -/
def flowNode (anchors : Anchors) : Nat → List Char → Option (Node × Anchors × List Char)
  | 0, _ => none
  | fuel + 1, cs =>
    let (p, cs) := properties true 4 ⟨none, none⟩ cs
    match skip cs with
    | '[' :: rest =>
      (flowItems anchors fuel [] rest).map fun (items, anchors, rest) =>
        let node := Node.sequence items
        (node, remember p node anchors, rest)
    | '\x7b' :: rest =>
      (flowPairs anchors fuel [] rest).map fun (pairs, anchors, rest) =>
        let node := Node.mapping pairs
        (node, remember p node anchors, rest)
    | cs =>
      let empty : Node := .scalar "" true p.tag
      match cs with
      | [] => none
      | c :: _ =>
        if c == ',' || c == ']' || c == '\x7d' || c == ':' then
          some (empty, remember p empty anchors, cs)
        else (scalar? true p.tag anchors cs).map fun (node, rest) =>
          (node, remember p node anchors, rest)

/-- The items of a flow sequence after its opening bracket or a comma. -/
def flowItems (anchors : Anchors) :
    Nat → List Node → List Char → Option (List Node × Anchors × List Char)
  | 0, _, _ => none
  | fuel + 1, acc, cs =>
    match skip cs with
    | ']' :: rest => some (acc.reverse, anchors, rest)
    | ',' :: _ => none
    | cs =>
      match flowNode anchors fuel cs with
      | none => none
      | some (node, anchors, rest) =>
        match skip rest with
        | ',' :: rest => flowItems anchors fuel (node :: acc) rest
        | ']' :: rest => some ((node :: acc).reverse, anchors, rest)
        | _ => none

/-- The pairs of a flow mapping after its opening brace or a comma. -/
def flowPairs (anchors : Anchors) :
    Nat → List (Node × Node) → List Char → Option (List (Node × Node) × Anchors × List Char)
  | 0, _, _ => none
  | fuel + 1, acc, cs =>
    match skip cs with
    | '\x7d' :: rest => some (acc.reverse, anchors, rest)
    | ',' :: _ => none
    | cs =>
      let cs := match cs with
        | '?' :: c :: rest => if isBlank c then rest else cs
        | cs => cs
      match flowNode anchors fuel cs with
      | none => none
      | some (key, anchors, rest) =>
        let value : Option (Node × Anchors × List Char) :=
          match skip rest with
          | ':' :: rest => flowNode anchors fuel rest
          | rest => some (.scalar "" true none, anchors, rest)
        match value with
        | none => none
        | some (value, anchors, rest) =>
          match skip rest with
          | ',' :: rest => flowPairs anchors fuel ((key, value) :: acc) rest
          | '\x7d' :: rest => some (((key, value) :: acc).reverse, anchors, rest)
          | _ => none

end

/-- Whether characters open a flow collection. -/
def opensFlow : List Char → Bool
  | c :: _ => c == '[' || c == '\x7b'
  | [] => false

/-- Lines on one line. -/
def joined (text : List Char) (more : List Line) : List Char :=
  more.foldl (fun acc l => acc ++ ' ' :: l.text) text

/-- A node that starts in the middle of a line and may go on over deeper lines. -/
def inline? (anchors : Anchors) (p : Properties) (text : List Char) (more : List Line) :
    Option (Node × Anchors) :=
  let whole := joined text more
  let node : Option (Node × Anchors × List Char) :=
    if opensFlow text then flowNode anchors (2 * whole.length + 2) whole
    else (scalar? false p.tag anchors whole).map fun (node, rest) => (node, anchors, rest)
  match node with
  | some (node, anchors, rest) =>
    if (skip rest).isEmpty then some (node, remember p node anchors) else none
  | none => none

/-- The key at the front of a line of a block mapping and what follows its colon. -/
def key? (anchors : Anchors) (text : List Char) : Option (Node × List Char) :=
  let (p, cs) := properties false 4 ⟨none, none⟩ text
  if opensFlow cs then none
  else match scalar? false p.tag anchors (skip cs) with
    | some (key, rest) =>
      match skip rest with
      | ':' :: rest =>
        match rest with
        | [] => some (key, [])
        | c :: _ => if isBlank c then some (key, skip rest) else none
      | _ => none
    | none => none

/-- What follows a mark that has a blank or the end of its line after it. -/
def afterMark? (mark : Char) : List Char → Option (List Char)
  | [c] => if c == mark then some [] else none
  | c :: d :: rest => if c == mark && isBlank d then some (skip rest) else none
  | [] => none

/-- What follows the dash of an item of a block sequence. -/
def item? (text : List Char) : Option (List Char) := afterMark? '-' text

/-- Whether a line starts a pair of a block mapping. -/
def opensPair (anchors : Anchors) (text : List Char) : Bool :=
  (afterMark? '?' text).isSome || (key? anchors text).isSome

mutual

/-- A node over whole lines. -/
def block (anchors : Anchors) : Nat → List Line → Option (Node × Anchors)
  | 0, _ => none
  | _ + 1, [] => some (.scalar "" true none, anchors)
  | fuel + 1, l :: rest =>
    if (item? l.text).isSome then
      (blockItems anchors l.indent fuel [] (l :: rest)).map fun (items, anchors) =>
        (.sequence items, anchors)
    else if opensPair anchors l.text then
      (blockPairs anchors l.indent fuel [] (l :: rest)).map fun (pairs, anchors) =>
        (.mapping pairs, anchors)
    else
      let (p, text) := properties false 4 ⟨none, none⟩ l.text
      if text.isEmpty then
        (block anchors fuel rest).map fun (node, anchors) => (node, remember p node anchors)
      else inline? anchors p text rest

/-- What follows a key or a dash: on its line, or on the lines below it. -/
def blockValue (anchors : Anchors) :
    Nat → List Char → List Line → Option (Node × Anchors)
  | 0, _, _ => none
  | fuel + 1, text, more =>
    let (p, text) := properties false 4 ⟨none, none⟩ text
    if text.isEmpty then
      match more, p.tag with
      | [], tag => let node := Node.scalar "" true tag; some (node, remember p node anchors)
      | _, some _ => none
      | more, none =>
        (block anchors fuel more).map fun (node, anchors) => (node, remember p node anchors)
    else inline? anchors p text more

/-- The items of a block sequence. -/
def blockItems (anchors : Anchors) (indent : Nat) :
    Nat → List Node → List Line → Option (List Node × Anchors)
  | 0, _, _ => none
  | _ + 1, acc, [] => some (acc.reverse, anchors)
  | fuel + 1, acc, l :: rest =>
    if l.indent != indent then none
    else match item? l.text with
      | none => none
      | some text =>
        let more := rest.takeWhile fun m => indent < m.indent
        match blockValue anchors fuel text more with
        | none => none
        | some (node, anchors) =>
          blockItems anchors indent fuel (node :: acc) (rest.dropWhile fun m => indent < m.indent)

/-- The pairs of a block mapping. A key is at the front of its line, or after a question mark; then
a line that starts with a colon has the value. -/
def blockPairs (anchors : Anchors) (indent : Nat) :
    Nat → List (Node × Node) → List Line → Option (List (Node × Node) × Anchors)
  | 0, _, _ => none
  | _ + 1, acc, [] => some (acc.reverse, anchors)
  | fuel + 1, acc, l :: rest =>
    let deeper (m : Line) : Bool := indent < m.indent
    if l.indent != indent then none
    else match afterMark? '?' l.text with
      | some text => do
        let (key, anchors) ← blockValue anchors fuel text (rest.takeWhile deeper)
        let rest := rest.dropWhile deeper
        let empty : Node := .scalar "" true none
        match rest with
        | [] => return ((key, empty) :: acc |>.reverse, anchors)
        | m :: more =>
          match if m.indent == indent then afterMark? ':' m.text else none with
          | some text =>
            let (node, anchors) ← blockValue anchors fuel text (more.takeWhile deeper)
            blockPairs anchors indent fuel ((key, node) :: acc) (more.dropWhile deeper)
          | none => blockPairs anchors indent fuel ((key, empty) :: acc) rest
      | none => do
        let (key, text) ← key? anchors l.text
        let below (m : Line) : Bool :=
          deeper m || (text.isEmpty && m.indent == indent && (item? m.text).isSome)
        let (node, anchors) ← blockValue anchors fuel text (rest.takeWhile below)
        blockPairs anchors indent fuel ((key, node) :: acc) (rest.dropWhile below)

end

/-- Whether a line begins a document, or ends one, by three characters. -/
def isMarker (c : Char) (l : Line) : Bool :=
  l.indent == 0 && l.text.take 3 == [c, c, c] &&
  match l.text.drop 3 with
  | [] => true
  | d :: _ => isBlank d

/-- The one document of a text, if it holds exactly one. What stands on the line that begins it is
neither a block sequence nor a block mapping. -/
def parse? (text : String) : Option Node := do
  let ls ← contents? text.toList
  let ls := if ls.any (isMarker '-') then ls.dropWhile (fun l => l.text.head? == some '%') else ls
  let (opening, body) : Option (List Char) × List Line := match ls with
    | l :: rest => if isMarker '-' l then (some (skip (l.text.drop 3)), rest) else (none, ls)
    | [] => (none, [])
  let kept := body.takeWhile fun l => !isMarker '.' l
  if !(body.drop (kept.length + 1)).isEmpty || kept.any (isMarker '-') then none
  let fuel := 2 * text.length + 4
  let (node, _) ← match opening with
    | some text => blockValue [] fuel text kept
    | none => if kept.isEmpty then none else block [] fuel kept
  return node

end SchemaStitch.Yaml
