import SchemaCodegen.Yaml.Text

/-!
# Tokens of YAML text

The signs of a YAML text: the marks that open, separate and close its parts, and the names,
tags and directives that are read as a whole.  Where the tokens stand, and which marks the
indentation stands for, is the matter of `SchemaCodegen.Yaml.Layout`.

A **tag** is a handle, which a directive may declare, and a suffix; or a full tag between
angle brackets.  Characters of a suffix can be given by their octets in UTF-8.
-/

namespace SchemaCodegen.Yaml

/-- A sign of a YAML text. -/
inductive Token where
  | version (major : Nat)
  | handle (name base : String)
  | directive
  | documentStart
  | documentEnd
  | textEnd
  | blockSequence
  | blockMapping
  | blockEnd
  | flowSequence
  | flowSequenceEnd
  | flowMapping
  | flowMappingEnd
  | blockEntry
  | flowEntry
  | key
  | value
  | aliasName (name : String)
  | anchor (name : String)
  | tag (handle : Option String) (suffix : String)
  | scalar (plain : Bool) (text : String)
deriving DecidableEq, Repr, Inhabited

/-! ### Names -/

/-- A character that may follow a name. -/
def endsName (c : Char) : Bool := endsPlain c || "?:,]\x7d%@\x60".toList.contains c

/-- The name of an anchor or of an alias; the cursor is behind its mark. -/
def readName (c : Cursor) : Outcome (String × Cursor) :=
  let (name, c) := c.takeWhile isNameChar
  if name.isEmpty || !endsName c.peek then refuse .badAnchor else .ok (String.ofList name, c)

/-! ### Tags -/

/-- A character of a tag's suffix. -/
def isTagChar (c : Char) : Bool :=
  c.isAlphanum || "-;/?:@&=+$,_.!~*'()[]%".toList.contains c

/-- Octets given by escapes at the cursor. -/
def tagOctets : (budget : Nat) → (done : List UInt8) → Cursor → Outcome (List UInt8 × Cursor)
  | 0, done, c => .ok (done, c)
  | budget + 1, done, c =>
    if c.peek == '%' then
      match Text.hexValue? (c.peekAt 1), Text.hexValue? (c.peekAt 2) with
      | some high, some low =>
        tagOctets budget (done ++ [UInt8.ofNat (16 * high + low)]) (c.skip 3)
      | _, _ => refuse .badTag
    else .ok (done, c)

/-- The suffix of a tag or the base of a handle, behind `done`. -/
def tagSuffix : (budget : Nat) → (done : List Char) → Cursor → Outcome (List Char × Cursor)
  | 0, done, c => .ok (done, c)
  | budget + 1, done, c =>
    if c.peek == '%' then do
      let (octets, c) ← tagOctets c.rest.length [] c
      match String.fromUTF8? ⟨octets.toArray⟩ with
      | some text => tagSuffix budget (done ++ text.toList) c
      | none => refuse .badTag
    else if isTagChar c.peek then
      let (run, c) := c.takeWhile fun ch => isTagChar ch && ch != '%'
      tagSuffix budget (done ++ run) c
    else .ok (done, c)

/-- A suffix that is not empty. -/
def readSuffix (c : Cursor) : Outcome (String × Cursor) := do
  let (suffix, c) ← tagSuffix c.rest.length [] c
  if suffix.isEmpty then refuse .badTag else pure (String.ofList suffix, c)

/-- A handle: an exclamation mark, or a name between two. -/
def readHandle (c : Cursor) : Outcome (String × Cursor) :=
  if c.peek != '!' then refuse .badTag
  else if c.peekAt 1 == ' ' then .ok ("!", c.skip 1)
  else
    let (name, c) := (c.skip 1).takeWhile isNameChar
    if c.peek == '!' then .ok (String.ofList ('!' :: name ++ ['!']), c.skip 1)
    else refuse .badTag

/-- A tag at the cursor. -/
def readTag (c : Cursor) : Outcome (Token × Cursor) := do
  let (token, c) ←
    if c.peekAt 1 == '<' then do
      let (suffix, c) ← readSuffix (c.skip 2)
      if c.peek == '>' then pure (Token.tag none suffix, c.skip 1) else refuse .badTag
    else if endsPlain (c.peekAt 1) then pure (Token.tag none "!", c.skip 1)
    else
      let word := c.rest.tail.takeWhile (!endsWord ·)
      let (handle, c) ← if word.contains '!' then readHandle c else pure ("!", c.skip 1)
      let (suffix, c) ← readSuffix c
      pure (Token.tag (some handle) suffix, c)
  if endsWord c.peek then pure (token, c) else refuse .badTag

/-! ### Directives -/

/-- A number of a version. -/
def readVersionPart (c : Cursor) : Outcome (Nat × Cursor) :=
  let (digits, c) := c.takeWhile isDigit
  if digits.isEmpty then refuse .badDirective
  else if Text.longestInteger < digits.length then .error (.failure .unreadable)
  else .ok (digits.foldl (fun n d => 10 * n + (d.toNat - 48)) 0, c)

/-- The version that a directive gives. -/
def readVersion (c : Cursor) : Outcome (Token × Cursor) := do
  let (major, c) ← readVersionPart (c.skipWhile (· == ' '))
  if c.peek != '.' then refuse .badDirective
  else
    let (_, c) ← readVersionPart (c.skip 1)
    if endsWord c.peek then pure (.version major, c) else refuse .badDirective

/-- The handle that a directive declares. -/
def readDeclaration (c : Cursor) : Outcome (Token × Cursor) := do
  let (handle, c) ← readHandle (c.skipWhile (· == ' '))
  if c.peek != ' ' then refuse .badDirective
  else
    let (base, c) ← readSuffix (c.skipWhile (· == ' '))
    if endsWord c.peek then pure (.handle handle base, c) else refuse .badDirective

/-- A directive; the cursor is behind its mark. -/
def readDirective (c : Cursor) : Outcome (Token × Cursor) := do
  let (name, c) := c.takeWhile isNameChar
  if name.isEmpty || !endsWord c.peek then refuse .badDirective
  else
    let (token, c) ←
      if name == "YAML".toList then readVersion c
      else if name == "TAG".toList then readDeclaration c
      else pure (Token.directive, c.skipWhile (!endsLine ·))
    let c := c.skipComment
    if endsLine c.peek then pure (token, c.takeBreak.2) else refuse .badDirective

end SchemaCodegen.Yaml
