/-!
# Tokens of markup

Markup is cut into tags, comments, declarations, references and the text between them.  Cutting
never looks back, and a construct that does not end, or is not what its beginning promises, is an
error at its first character.
-/

namespace Stencil.Markup

/-- A piece of markup.  Names, attributes and values are as written. -/
inductive Token where
  | startTag (name attrs : List Char)
  | emptyTag (name attrs : List Char)
  | endTag (name : List Char)
  | text (value : List Char)
  | reference (name : List Char)
  | characterData (value : List Char)
  | comment (value : List Char)
  | doctype (value : List Char)
  | instruction
  deriving DecidableEq, Repr, Inhabited

/-- The white space that separates parts of a tag. -/
def isTagSpace (c : Char) : Bool :=
  c == ' ' || c == '\t' || c == '\r' || c == '\n'

/-- A character that may stand between the `&` and the `;` of a reference. -/
def isReferenceChar (c : Char) : Bool :=
  c != ';' && c != '&' && c != '<'

/-- A character that begins neither a reference nor a construct. -/
def isTextChar (c : Char) : Bool :=
  c != '<' && c != '&'

/-! ## Ends of constructs -/

/-- Cut at the first `>` outside quotes; the first argument is the quote that is open. -/
def cutTag : Option Char → List Char → Option (List Char × List Char)
  | _, [] => none
  | none, '>' :: cs => some ([], cs)
  | none, c :: cs =>
    (cutTag (if c = '"' ∨ c = '\'' then some c else none) cs).map fun (tag, rest) =>
      (c :: tag, rest)
  | some quote, c :: cs =>
    (cutTag (if c = quote then none else some quote) cs).map fun (tag, rest) => (c :: tag, rest)

/-- Cut at the first `>` before which `ended` holds.  Both `ended` and the result get what comes
before the `>` last character first, continuing `seen`. -/
def cutWhen (ended : List Char → Bool) (seen : List Char) :
    List Char → Option (List Char × List Char)
  | [] => none
  | c :: cs =>
    if c = '>' ∧ ended seen then some (seen, cs) else cutWhen ended (c :: seen) cs

/-- Cut at the `>` that balances `depth` earlier `<`. -/
def cutBalanced : Nat → List Char → Option (List Char × List Char)
  | _, [] => none
  | 0, '>' :: cs => some ([], cs)
  | depth, c :: cs =>
    let depth := if c = '<' then depth + 1 else if c = '>' then depth - 1 else depth
    (cutBalanced depth cs).map fun (inside, rest) => (c :: inside, rest)

/-- Two hyphens come before the end of a comment, and two more characters before them. -/
def endsComment : List Char → Bool
  | '-' :: '-' :: seen => 2 ≤ seen.length
  | _ => false

/-- Two brackets come before the end of character data. -/
def endsCharacterData : List Char → Bool
  | ']' :: ']' :: _ => true
  | _ => false

/-- A question mark comes before the end of an instruction. -/
def endsInstruction : List Char → Bool
  | '?' :: _ => true
  | _ => false

/-! ## Constructs

Each reader gets `start`, the text from the `<` of the construct on, and the text after that.  An
error is the text from the place of the error on. -/

/-- Split the inside of a tag into the name and the attributes. -/
def splitName (tag : List Char) : List Char × List Char :=
  (tag.takeWhile (!isTagSpace ·), tag.dropWhile (!isTagSpace ·))

/-- The token of a tag without its brackets.  A slash at the end makes it an empty element. -/
def tagToken (tag : List Char) : Token :=
  match tag.reverse with
  | '/' :: inside =>
    let (name, attrs) := splitName inside.reverse
    .emptyTag name attrs
  | _ =>
    let (name, attrs) := splitName tag
    .startTag name attrs

/-- The name in an end tag: all of it, without white space at the end if it has anything else. -/
def endTagName (tag : List Char) : List Char :=
  let name := (tag.reverse.dropWhile isTagSpace).reverse
  if name.isEmpty then tag else name

/-- Read character data, a comment or a doctype after its `<!`. -/
def readDeclaration (start : List Char) : List Char → Except (List Char) (Token × List Char)
  | '[' :: cs =>
    match cutWhen endsCharacterData [] cs with
    | none => .error start
    | some (seen, rest) =>
      if "CDATA[".toList.isPrefixOf seen.reverse then
        .ok (.characterData ((seen.drop 2).reverse.drop 6), rest)
      else .error start
  | '-' :: cs =>
    match cutWhen endsComment ['-'] cs with
    | none => .error start
    | some (seen, rest) =>
      if "--".toList.isPrefixOf seen.reverse then
        .ok (.comment ((seen.drop 2).reverse.drop 2), rest)
      else .error start
  | c :: cs =>
    if c = 'D' ∨ c = 'd' then
      match cutBalanced 0 cs with
      | none => .error start
      | some (inside, rest) =>
        if (inside.take 6).map Char.toUpper = "OCTYPE".toList then
          match (inside.drop 6).dropWhile isTagSpace with
          | [] => .error ('>' :: rest)
          | value => .ok (.doctype value, rest)
        else .error start
    else .error start
  | [] => .error start

/-- Read an instruction after its `<?`. -/
def readInstruction (start cs : List Char) : Except (List Char) (Token × List Char) :=
  match cutWhen endsInstruction ['?'] cs with
  | none => .error start
  | some (seen, rest) => if seen.length ≤ 1 then .error start else .ok (.instruction, rest)

/-- Read the construct that begins with the `<` of `start`. -/
def readConstruct (start : List Char) : List Char → Except (List Char) (Token × List Char)
  | '!' :: cs => readDeclaration start cs
  | '?' :: cs => readInstruction start cs
  | '/' :: cs =>
    match cutTag none cs with
    | none => .error start
    | some (tag, rest) => .ok (.endTag (endTagName tag), rest)
  | cs =>
    match cutTag none cs with
    | none => .error start
    | some (tag, rest) => .ok (tagToken tag, rest)

/-- Read the token at the beginning of `c :: cs`: the token and the text after it. -/
def readToken (c : Char) (cs : List Char) : Except (List Char) (Token × List Char) :=
  if c = '<' then readConstruct (c :: cs) cs
  else if c = '&' then
    match cs.dropWhile isReferenceChar with
    | ';' :: rest => .ok (.reference (cs.takeWhile isReferenceChar), rest)
    | _ => .error (c :: cs)
  else .ok (.text (c :: cs.takeWhile isTextChar), cs.dropWhile isTextChar)

/-! ## Tokens take up text -/

theorem cutTag_length {quote : Option Char} {cs tag rest : List Char}
    (h : cutTag quote cs = some (tag, rest)) : rest.length < cs.length := by
  fun_induction cutTag quote cs generalizing tag rest with
  | case1 => simp at h
  | case2 cs => simp_all
  | case3 c cs _ ih =>
    obtain ⟨⟨t, r⟩, hr, he⟩ := Option.map_eq_some_iff.1 h
    cases he
    exact Nat.lt_succ_of_lt (ih hr)
  | case4 quote c cs ih =>
    obtain ⟨⟨t, r⟩, hr, he⟩ := Option.map_eq_some_iff.1 h
    cases he
    exact Nat.lt_succ_of_lt (ih hr)

theorem cutWhen_length {ended : List Char → Bool} {seen cs before rest : List Char}
    (h : cutWhen ended seen cs = some (before, rest)) : rest.length < cs.length := by
  induction cs generalizing seen with
  | nil => simp [cutWhen] at h
  | cons c cs ih =>
    rw [cutWhen] at h
    split at h
    · cases h
      exact Nat.lt_succ_self _
    · exact Nat.lt_succ_of_lt (ih h)

theorem cutBalanced_length {depth : Nat} {cs inside rest : List Char}
    (h : cutBalanced depth cs = some (inside, rest)) : rest.length < cs.length := by
  fun_induction cutBalanced depth cs generalizing inside rest with
  | case1 => simp at h
  | case2 cs => simp_all
  | case3 depth c cs =>
    rename_i ih
    obtain ⟨⟨t, r⟩, hr, he⟩ := Option.map_eq_some_iff.1 h
    cases he
    exact Nat.lt_succ_of_lt (ih hr)

theorem readDeclaration_length {start cs rest : List Char} {token : Token}
    (h : readDeclaration start cs = .ok (token, rest)) : rest.length < cs.length := by
  rw [readDeclaration.eq_def] at h
  repeat' split at h
  all_goals cases h
  · exact Nat.lt_succ_of_lt (cutWhen_length ‹_›)
  · exact Nat.lt_succ_of_lt (cutWhen_length ‹_›)
  · exact Nat.lt_succ_of_lt (cutBalanced_length ‹_›)

theorem readConstruct_length {start cs rest : List Char} {token : Token}
    (h : readConstruct start cs = .ok (token, rest)) : rest.length < cs.length := by
  rw [readConstruct.eq_def] at h
  split at h
  · exact Nat.lt_succ_of_lt (readDeclaration_length h)
  · rw [readInstruction] at h
    repeat' split at h
    all_goals cases h
    exact Nat.lt_succ_of_lt (cutWhen_length ‹_›)
  · split at h <;> cases h
    exact Nat.lt_succ_of_lt (cutTag_length ‹_›)
  · split at h <;> cases h
    exact cutTag_length ‹_›

/-- A token takes up at least one character. -/
theorem readToken_length {c : Char} {cs rest : List Char} {token : Token}
    (h : readToken c cs = .ok (token, rest)) : rest.length < (c :: cs).length := by
  rw [readToken] at h
  split at h
  · exact Nat.lt_succ_of_lt (readConstruct_length h)
  · split at h
    · split at h
      · cases h
        have := (List.dropWhile_sublist isReferenceChar (l := cs)).length_le
        simp_all
        omega
      · cases h
    · cases h
      exact Nat.lt_succ_of_le (List.dropWhile_sublist isTextChar).length_le

end Stencil.Markup
