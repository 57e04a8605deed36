import LexChart.Expr.Simplify
import LexChart.Pattern.CharSet
set_option autoImplicit false

/-!
# The pattern language

| Written              | Meaning                                              |
|----------------------|------------------------------------------------------|
| `.`                  | any character                                        |
| `[a-z_]`             | a set of characters, all others with a leading caret |
| `\d`, `\w`, `\s`     | a class of characters, all others in upper case      |
| `(a)`                | an explicit group                                    |
| `?`, `*`, `+`, `{n}` | a quantifier on what stands before it                |
| `ab`                 | one after the other                                  |
| `a|b`                | one of two                                           |

A pattern is read from left to right by recursive descent.  The readers of a nested language call
each other with a bound on their depth; a chain of three calls consumes a character, so the bound
that `parse` starts from is never reached.
-/

namespace LexChart

/-- A regular expression over character classes. -/
abbrev Pattern : Type := Expr CharClass

namespace Pattern

/-- The characters that can only follow what they quantify. -/
def isQuantifierStart (c : Char) : Bool := c = '?' || c = '*' || c = '+' || c = '{'

/-- Applies all quantifiers at the beginning of a text, at most `limit` of them. -/
def readQuantifiers : Nat → Pattern → List Char → Except Rejection (Pattern × List Char)
  | 0, atom, text => .ok (atom, text)
  | limit + 1, atom, text => do
    match ← readQuantifier text with
    | none => pure (atom, text)
    | some (repetition, rest) => readQuantifiers limit (atom.repeated repetition) rest

/-- The only branch, or the choice of several. -/
def ofBranches : List Pattern → Pattern
  | [branch] => branch
  | branches => .choice branches

mutual

/-- Branches separated by bars, up to the end or a closing parenthesis. -/
def readBranches : Nat → List Char → Except Rejection (List Pattern × List Char)
  | 0, text => .error ⟨.unmatchedGroup, text⟩
  | depth + 1, text => do
    let (items, rest) ← readSequence depth text
    match rest with
    | '|' :: rest =>
      let (branches, rest) ← readBranches depth rest
      pure (.sequence items :: branches, rest)
    | rest => pure ([.sequence items], rest)

/-- Quantified atoms, up to the end, a bar or a closing parenthesis. -/
def readSequence : Nat → List Char → Except Rejection (List Pattern × List Char)
  | 0, text => .error ⟨.unmatchedGroup, text⟩
  | _ + 1, [] => .ok ([], [])
  | depth + 1, c :: text =>
    if c = '|' ∨ c = ')' then .ok ([], c :: text)
    else if isQuantifierStart c then .error ⟨.nothingToQuantify, c :: text⟩
    else do
      let (atom, rest) ← readAtom depth c text
      let (item, rest) ← readQuantifiers rest.length atom rest
      let (items, rest) ← readSequence depth rest
      pure (item :: items, rest)

/-- The atom that begins with a character. -/
def readAtom : Nat → Char → List Char → Except Rejection (Pattern × List Char)
  | 0, _, text => .error ⟨.unmatchedGroup, text⟩
  | depth + 1, c, text =>
    if c = '(' then do
      let (branches, rest) ← readBranches depth text
      match rest with
      | ')' :: rest => pure ((Expr.sequence [ofBranches branches]).group, rest)
      | rest => .error ⟨.unmatchedGroup, rest⟩
    else if c = '[' then do
      let (cls, rest) ← readSet text
      pure (.terminal cls, rest)
    else if c = '.' then .ok (.terminal .any, text)
    else if c = '\\' then
      match text with
      | [] => .error ⟨.danglingEscape, []⟩
      | e :: rest =>
        match escaped e with
        | .char c => .ok (.terminal (.char c), rest)
        | .cls intervals negated => .ok (.terminal (.ofSet intervals negated), rest)
    else .ok (.terminal (.char c), text)

end

/-- Reads a whole pattern.  Only a closing parenthesis without a partner is left over by the
branches. -/
def readAll (text : List Char) : Except Rejection Pattern := do
  let (branches, rest) ← readBranches (3 * text.length + 3) text
  match rest with
  | [] => pure (ofBranches branches).simplify
  | rest => .error ⟨.unmatchedGroup, rest⟩

/-- The simplified expression of a pattern, or what is wrong with it and how many characters of it
were read by then. -/
def parse (pattern : String) : Except Diagnostic Pattern :=
  let text := pattern.toList
  match readAll text with
  | .ok e => .ok e
  | .error ⟨reason, rest⟩ =>
    .error ⟨.malformedPattern pattern (text.length - rest.length) reason, none⟩

/-- Parses several patterns; the first malformed one is reported. -/
def parseAll (patterns : List String) : Except Diagnostic (List Pattern) := patterns.mapM parse

/-- The pattern that matches exactly one text. -/
def ofSpelling (text : List Char) : Pattern :=
  (Expr.sequence (text.map fun c => .terminal (.char c))).simplify

end Pattern

end LexChart
