import WireCodec.Derive.Token
import WireCodec.Text.Reader

/-!
# Reading tokens from the front

A `TokenReader` takes something from the front of a list of tokens or finds that it is not there.
What a reader does next hangs on the tokens in front of it, up to three of them; the questions about
them are plain functions, so that they can also be asked behind the first or second token.
-/

namespace WireCodec.Derive

abbrev TokenReader := StateT (List Token) Option

/-! ## What stands in front -/

/-- The tokens behind marks that follow each other at once. -/
def behindMarks : List Char → List Token → Option (List Token)
  | [], tokens => some tokens
  | [c], .mark d _ :: rest => if c = d then some rest else none
  | c :: more, .mark d true :: rest => if c = d then behindMarks more rest else none
  | _, _ => none

/-- True in front of certain marks; the last one may go on with others. -/
def marksAt (marks : String) (s : List Token) : Bool := (behindMarks marks.toList s).isSome

def anyMarksAt (list : List String) (s : List Token) : Bool := list.any (marksAt · s)

def isKeyword (word : String) : Token → Bool
  | .word name false => name == word
  | _ => false

def keywordAt (words : List String) (s : List Token) : Bool :=
  s.head?.any fun t => words.any (isKeyword · t)

def wordAt : List Token → Bool
  | .word _ _ :: _ => true
  | _ => false

def nameAt : List Token → Bool
  | .word name raw :: _ => isFree name raw
  | _ => false

def pathWordAt (s : List Token) : Bool :=
  nameAt s || keywordAt ["self", "Self", "super", "crate"] s

def groupAt (d : Delimiter) : List Token → Bool
  | .group e _ :: _ => d == e
  | _ => false

def lifetimeAt : List Token → Bool
  | .lifetime :: _ => true
  | _ => false

/-- True in front of a literal.  A number may have a sign, and truth values are literals too. -/
def literalAt : List Token → Bool
  | .literal _ :: _ => true
  | .mark '-' _ :: .literal (.integer ..) :: _ => true
  | .mark '-' _ :: .literal (.float _) :: _ => true
  | s => keywordAt ["true", "false"] s

def textAt : List Token → Bool
  | .literal (.text _) :: _ => true
  | _ => false

def dotAt (s : List Token) : Bool := marksAt "." s && !marksAt ".." s

def colonAt (s : List Token) : Bool := marksAt ":" s && !marksAt "::" s

def barAt (s : List Token) : Bool := marksAt "|" s && !marksAt "||" s && !marksAt "|=" s

/-- True in front of the mark of a macro, and not of a comparison. -/
def bangAt (s : List Token) : Bool := marksAt "!" s && !marksAt "!=" s

namespace TokenReader

variable {α : Type}

/-! ## Single tokens -/

def readAll (r : TokenReader α) (tokens : List Token) : Option α :=
  match r.run tokens with
  | some (a, []) => some a
  | _ => none

def look (question : List Token → Bool) : TokenReader Bool := return question (← get)

def atEnd : TokenReader Bool := look (·.isEmpty)

def next : TokenReader Token := do
  match ← get with
  | [] => failure
  | t :: rest =>
    set rest
    return t

def takeMarks? (marks : String) : TokenReader Bool := do
  match behindMarks marks.toList (← get) with
  | some rest =>
    set rest
    return true
  | none => return false

def expectMarks (marks : String) : TokenReader Unit := do
  unless ← takeMarks? marks do failure

def takeKeyword? (word : String) : TokenReader Bool := do
  if ← look (keywordAt [word]) then
    let _ ← next
    return true
  return false

def expectKeyword (word : String) : TokenReader Unit := do
  unless ← takeKeyword? word do failure

/-- Takes a word, and whether it is in raw form. -/
def anyWord : TokenReader (String × Bool) := do
  match ← next with
  | .word name raw => return (name, raw)
  | _ => failure

def freeWord : TokenReader (String × Bool) := do
  let (name, raw) ← anyWord
  if isFree name raw then return (name, raw) else failure

def freeWordOrUnderscore : TokenReader Unit := do
  let (name, raw) ← anyWord
  unless isFree name raw || name == "_" do failure

def takeLifetime? : TokenReader Bool := do
  if ← look lifetimeAt then
    let _ ← next
    return true
  return false

def lifetime : TokenReader Unit := do
  unless ← takeLifetime? do failure

def literal : TokenReader Unit := do
  unless ← look literalAt do failure
  let _ ← takeMarks? "-"
  let _ ← next

/-! ## Groups -/

def group (d : Delimiter) : TokenReader (List Token) := do
  match ← next with
  | .group e content => if d = e then return content else failure
  | _ => failure

def anyGroup : TokenReader Delimiter := do
  match ← next with
  | .group d _ => return d
  | _ => failure

def within (d : Delimiter) (r : TokenReader α) : TokenReader α := do
  match r.readAll (← group d) with
  | some a => return a
  | none => failure

/-! ## Repetition -/

def giving {β : Type} (a : α) (r : TokenReader β) : TokenReader α := do
  let _ ← r
  return a

/-- Repeats a step that takes something each time, until it yields nothing. -/
def many (step : TokenReader (Option α)) : TokenReader (List α) := do
  Text.repeatUpTo step ((← get).length + 1)

/-- Repeats a step, at most so many times, until it yields nothing; what it yields is handed on. -/
def carryUpTo (step : α → TokenReader (Option α)) : Nat → α → TokenReader α
  | 0, a => return a
  | n + 1, a => do
    match ← step a with
    | some b => carryUpTo step n b
    | none => return a

def carry (step : α → TokenReader (Option α)) (a : α) : TokenReader α := do
  carryUpTo step ((← get).length + 1) a

/-- Takes items with a mark between them up to a place that is recognised; the last mark may have
nothing behind it. -/
def separatedBy (mark : String) (stop : List Token → Bool) (item : TokenReader α) :
    TokenReader (List α) :=
  many do
    -- A mark may end the items, so the stop is looked for in front of each.
    if ← look stop then return none
    let a ← item
    unless ← takeMarks? mark do
      unless ← look stop do failure
    return some a

def listed (item : TokenReader α) : TokenReader (List α) := separatedBy "," (·.isEmpty) item

def listedInAngles (item : TokenReader α) : TokenReader (List α) := do
  let items ← separatedBy "," (marksAt ">") item
  expectMarks ">"
  return items

end TokenReader

end WireCodec.Derive
