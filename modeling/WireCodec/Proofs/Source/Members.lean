import Mathlib.Data.List.Flatten
import Mathlib.Data.List.Nodup
import WireCodec.Derive.Token
import WireCodec.Proofs.Source.Identifier
import WireCodec.Proofs.Source.Plain
import WireCodec.Proofs.Target.Token

/-!
# Names of generated members

The members of the block of a codec are read off its text: a line one level deep that starts as the
declaration of a constant or a procedure declares the word behind.  Names and steps of the codec
cannot hide the three members that are there on purpose.
-/

namespace WireCodec.Source

/-! ## Identifiers -/

/-- One identifier: a character that may start one, then characters that may go on. -/
def IsIdentifierWord (s : String) : Prop :=
  ∃ c rest, s.toList = c :: rest ∧ Text.startsIdentifier c = true ∧
    ∀ d ∈ rest, Text.continuesIdentifier d = true

/-- What the target language takes for the name of a member.  Unlike the names of a schema it may go
beyond ASCII. -/
inductive LegalMember : String → Prop where
  | plain {name : String} (word : IsIdentifierWord name) (free : name ∉ keywords)
    (noPath : name ∉ Derive.neverRaw) : LegalMember name
  | raw {name : String} (word : IsIdentifierWord name) (noPath : name ∉ Derive.neverRaw) :
    LegalMember ("r#" ++ name)

/-- A name without the mark of raw form: what tells names apart. -/
def bareName (s : String) : String :=
  match s.toList with
  | 'r' :: '#' :: name => .ofList name
  | _ => s

/-- Names that may stand in one block. -/
def Usable (names : List String) : Prop :=
  (∀ name ∈ names, LegalMember name) ∧ (names.map bareName).Nodup

theorem IsIdentifierWord.continues {s : String} (h : IsIdentifierWord s) {c : Char}
    (hc : c ∈ s.toList) : Text.continuesIdentifier c = true := by
  obtain ⟨first, rest, hlist, hfirst, hrest⟩ := h
  rw [hlist] at hc
  rcases List.mem_cons.mp hc with rfl | hc
  · exact Text.continuesIdentifier_of_startsIdentifier hfirst
  · exact hrest c hc

theorem LegalMember.isWordChar {s : String} (h : LegalMember s) {c : Char} (hc : c ∈ s.toList) :
    Target.isWordChar c = true := by
  cases h with
  | plain word => exact Target.isWordChar_of_continuesIdentifier (word.continues hc)
  | raw word =>
    rw [String.toList_append, List.mem_append] at hc
    rcases hc with hc | hc
    · have hmark : c = 'r' ∨ c = '#' := by simpa using hc
      rcases hmark with rfl | rfl <;> decide
    · exact Target.isWordChar_of_continuesIdentifier (word.continues hc)

theorem plain_of_isWordChar {s : String} (h : ∀ c ∈ s.toList, Target.isWordChar c = true) :
    Plain s :=
  fun hc => absurd (h _ hc) (by decide)

theorem isIdentifierWord_of_isName {name : String} (h : Text.isName name = true) :
    IsIdentifierWord name := by
  rw [Text.isName, Bool.and_eq_true] at h
  have hword := h.1
  cases hlist : name.toList with
  | nil =>
    rw [hlist] at hword
    cases hword
  | cons c rest =>
    rw [hlist, Text.isWord, Bool.and_eq_true, List.all_eq_true] at hword
    obtain ⟨hfirst, hrest⟩ := hword
    have hascii := Target.ascii_of_textWordChar (Text.isWordChar_of_isWordStart hfirst)
    refine ⟨c, rest, hlist, ?_, fun d hd => Target.continuesIdentifier_of_textWordChar (hrest d hd)⟩
    rw [Text.startsIdentifier, if_pos hascii, hfirst]

/-! ## Reading members off a text -/

def memberKeywords : List String := ["    pub const ", "    pub fn "]

/-- The name that a line declares, if it declares a member. -/
def declaredMember? (line : String) : Option String :=
  memberKeywords.findSome? fun keyword =>
    (line.toList.dropPrefix? keyword.toList).map fun rest =>
      String.ofList (rest.takeWhile Target.isWordChar)

/-- The names of the members that are declared one level deep in a text, in order. -/
def declaredMembers (text : String) : List String :=
  (Text.split '\n' text).filterMap declaredMember?

/-- The members that a text declares are found line by line. -/
theorem declaredMembers_unlines (lines : List String) :
    declaredMembers (unlines lines) = lines.flatMap declaredMembers := by
  induction lines with
  | nil => rfl
  | cons line rest ih =>
    rw [unlines_cons, declaredMembers, Text.split_append, List.filterMap_append, List.flatMap_cons,
      ← ih]
    rfl

theorem declaredMembers_plain {line : String} (h : Plain line) :
    declaredMembers line = (declaredMember? line).toList := by
  rw [declaredMembers, Text.split_plain h]
  cases hname : declaredMember? line <;> simp [hname]

/-- The line of a member declares the word behind its keyword. -/
theorem declaredMember?_line {keyword name : String} (hkeyword : keyword ∈ memberKeywords)
    (hname : ∀ c ∈ name.toList, Target.isWordChar c = true) {c : Char}
    (hc : Target.isWordChar c = false) {mark tail : String} {rest : List Char}
    (htail : mark.toList = c :: rest) :
    declaredMember? (keyword ++ (name ++ (mark ++ tail))) = some name := by
  have hline : (keyword ++ (name ++ (mark ++ tail))).toList =
      keyword.toList ++ (name.toList ++ c :: (rest ++ tail.toList)) := by
    rw [String.toList_append, String.toList_append, String.toList_append, htail, List.cons_append]
  have hword : (name.toList ++ c :: (rest ++ tail.toList)).takeWhile Target.isWordChar =
      name.toList := by
    rw [List.takeWhile_append_of_pos hname]
    simp [hc]
  have hconst (tail : List Char) :
      ("    pub fn ".toList ++ tail).dropPrefix? "    pub const ".toList = none := rfl
  simp only [memberKeywords, List.mem_cons, List.not_mem_nil, or_false] at hkeyword
  rcases hkeyword with rfl | rfl
  · rw [declaredMember?, hline, memberKeywords, List.findSome?_cons,
      List.dropPrefix?_append_of_beq _ (beq_self_eq_true _), Option.map_some, hword,
      String.ofList_toList]
  · rw [declaredMember?, hline, memberKeywords, List.findSome?_cons, hconst, Option.map_none,
      List.findSome?_cons, List.dropPrefix?_append_of_beq _ (beq_self_eq_true _), Option.map_some,
      hword, String.ofList_toList]

/-- The line of a member starts its fifth column with the first letter of `pub`. -/
theorem declaredMember?_eq_none {line : String} (h : (line.toList.drop 4).head? ≠ some 'p') :
    declaredMember? line = none := by
  rw [declaredMember?, List.findSome?_eq_none_iff]
  intro keyword hkeyword
  rw [Option.map_eq_none_iff, Option.eq_none_iff_forall_ne_some]
  intro rest hrest
  obtain ⟨start, hline, hstart⟩ := List.dropPrefix?_eq_some_iff.mp hrest
  rw [hline, eq_of_beq hstart] at h
  simp only [memberKeywords, List.mem_cons, List.not_mem_nil, or_false] at hkeyword
  rcases hkeyword with rfl | rfl <;> exact h rfl

/-- Nothing deeper declares a member. -/
theorem members_deeper {good : String → Prop} {marks : List Mark} (h : Laid good marks)
    (depth : Nat) : (linesFrom (depth + 2) marks).filterMap declaredMember? = [] := by
  refine List.filterMap_eq_nil_iff.mpr fun l hl => declaredMember?_eq_none ?_
  rcases h.of_mem_linesFrom hl with rfl | ⟨text, deeper, -, rfl⟩
  · decide
  · have hdepth : 4 * (depth + 2 + deeper) = 4 + (4 * (depth + deeper) + 3 + 1) := by omega
    rw [indentation, hdepth]
    simp [List.replicate_succ, Nat.add_comm 4]

/-! ## The block of a codec -/

section Layout

theorem laidOut_countLines (field value errorKind : String) :
    Laid (fun _ => True) (countLines field value errorKind) :=
  .line trivial (.nest (.line trivial (.singleton trivial)) .nil)

theorem laidOut_decodeLines (step : DecodeStep) : Laid (fun _ => True) (decodeLines step) := by
  cases step with
  | scratch | newSequence => exact .singleton trivial
  | count field length => exact laidOut_countLines ..
  | read size =>
    cases size with
    | fixed bytes => exact .singleton trivial
    | counted field unit =>
      have hgrow : Laid (fun _ => True)
          (block "if buf.len() < end \x7b" [.line "buf.resize(end, 0);"] "\x7d" ++
            [.line "::std::io::Read::read_exact(r, &mut buf[filled..end])?;",
              .line "filled = end;"]) :=
        (Laid.block trivial (.singleton trivial) trivial).append
          (.line trivial (.singleton trivial))
      exact .line trivial (.block trivial (.line trivial (.block trivial (.line trivial hgrow)
        trivial)) trivial)
  | newArray field length elem => exact .singleton trivial
  | load slot type offset =>
    cases slot with
    | field field => exact .singleton trivial
    | elements field => exact .block trivial (.line trivial (.singleton trivial)) trivial

theorem laidOut_encodeLines (stores : Bool) (step : EncodeStep) :
    Laid (fun _ => True) (encodeLines stores step) := by
  cases step with
  | count field length => exact laidOut_countLines ..
  | checkCount field => exact .block trivial (.singleton trivial) trivial
  | reserve fixed counted => exact .singleton trivial
  | store slot type =>
    cases slot with
    | field field => exact .block trivial (.line trivial (.singleton trivial)) trivial
    | elements field => exact .block trivial (.line trivial (.singleton trivial)) trivial
  | write => exact .line trivial (.singleton trivial)

end Layout

/-- The members that are there on purpose. -/
def ownMembers (style : Style) : List String := ["WIRE_FIXED_SIZE", style.readName, style.writeName]

def sizeLine (c : Codec) : String :=
  "pub const WIRE_FIXED_SIZE: usize = " ++ toString c.fixedSize ++ ";"

def readLine (style : Style) (c : Codec) : String :=
  let reader := if c.decode.any DecodeStep.isRead then "r" else "_r"
  s!"pub fn {style.readName}<R: ::std::io::Read + ?Sized>({reader}: &mut R) -> " ++
    "::std::io::Result<Self> \x7b"

def writeLine (style : Style) : String :=
  s!"pub fn {style.writeName}<W: ::std::io::Write + ?Sized>(&self, w: &mut W) -> " ++
    "::std::io::Result<usize> \x7b"

def decodeBody (c : Codec) : List Mark := c.decode.flatMap decodeLines ++ [resultLine c.fields]

def encodeBody (c : Codec) : List Mark :=
  c.encode.flatMap (encodeLines (c.encode.any EncodeStep.isStore))

theorem laidOut_decodeBody (c : Codec) : Laid (fun _ => True) (decodeBody c) := by
  have hresult : Laid (fun _ => True) [resultLine c.fields] := by
    unfold resultLine
    dsimp only
    split <;> exact .singleton trivial
  exact (Laid.flatMap fun step _ => laidOut_decodeLines step).append hresult

theorem laidOut_encodeBody (c : Codec) : Laid (fun _ => True) (encodeBody c) :=
  .flatMap fun step _ => laidOut_encodeLines _ step

/-- Whatever the names of a codec are, its three members stand one level deep. -/
theorem linesFrom_implLines (style : Style) (c : Codec) :
    linesFrom 0 (implLines style c) =
      ["#[allow(" ++ allowedLints ++ ")]", "impl " ++ identifier c.name ++ " \x7b",
        indentation 1 ++ "/// Bytes occupied by the fixed-size fields.",
        indentation 1 ++ sizeLine c, "",
        indentation 1 ++ s!"/// Decode a `{c.name}` from a reader.",
        indentation 1 ++ readLine style c] ++ linesFrom 2 (decodeBody c) ++
      [indentation 1 ++ "\x7d", "",
        indentation 1 ++ "/// Encode into `w`; returns the number of bytes written.",
        indentation 1 ++ writeLine style] ++ linesFrom 2 (encodeBody c) ++
      [indentation 1 ++ "\x7d", "\x7d"] := by
  have hread : Laid (fun _ => True) (decodeProcedure style c) :=
    .line trivial (.block trivial (laidOut_decodeBody c) trivial)
  have hwrite : Laid (fun _ => True) (encodeProcedure style c) :=
    .line trivial (.block trivial (laidOut_encodeBody c) trivial)
  have hsize : Laid (fun _ => True) [.line "/// Bytes occupied by the fixed-size fields.",
      .line (sizeLine c), .blank] :=
    .line trivial (.line trivial (.blank .nil))
  have hbody := ((hsize.append hread).append (.blank .nil)).append hwrite
  have hdecode : linesFrom 1 (decodeProcedure style c) =
      (indentation 1 ++ s!"/// Decode a `{c.name}` from a reader.") ::
        (indentation 1 ++ readLine style c) ::
          (linesFrom 2 (decodeBody c) ++ [indentation 1 ++ "\x7d"]) :=
    congrArg (_ :: ·) ((laidOut_decodeBody c).linesFrom_block ..)
  have hencode : linesFrom 1 (encodeProcedure style c) =
      (indentation 1 ++ "/// Encode into `w`; returns the number of bytes written.") ::
        (indentation 1 ++ writeLine style) ::
          (linesFrom 2 (encodeBody c) ++ [indentation 1 ++ "\x7d"]) :=
    congrArg (_ :: ·) ((laidOut_encodeBody c).linesFrom_block ..)
  show _ :: linesFrom 0 (block _ (([.line _, .line (sizeLine c), .blank] ++
    decodeProcedure style c) ++ [.blank] ++ encodeProcedure style c) _) = _
  rw [hbody.linesFrom_block, linesFrom_append, linesFrom_append, linesFrom_append,
    ((hsize.append hread).append (.blank .nil)).depthAfter_eq, (hsize.append hread).depthAfter_eq,
    hsize.depthAfter_eq, hdecode, hencode]
  simp only [linesFrom, Mark.lines, Mark.depthAfter, indentation_zero, String.empty_append,
    List.cons_append, List.nil_append, List.append_assoc]

variable {style : Style} {c : Codec}

theorem declaredMember?_sizeLine :
    declaredMember? (indentation 1 ++ sizeLine c) = some "WIRE_FIXED_SIZE" := by
  have hopen : indentation 1 ++ "pub const WIRE_FIXED_SIZE: usize = " =
      "    pub const " ++ ("WIRE_FIXED_SIZE" ++ ": usize = ") := by decide
  have hgroup (a b c d e f g : String) (h : a ++ b = c ++ (d ++ e)) :
      a ++ (b ++ f ++ g) = c ++ (d ++ (e ++ (f ++ g))) := by
    have hleft : a ++ (b ++ f ++ g) = (a ++ b) ++ (f ++ g) := by simp only [String.append_assoc]
    rw [hleft, h]
    simp only [String.append_assoc]
  have hname : "WIRE_FIXED_SIZE".toList.all Target.isWordChar = true := by decide
  have hmark : ": usize = ".toList = ':' :: " usize = ".toList := by simp
  unfold sizeLine
  rw [hgroup _ _ _ _ _ _ _ hopen]
  exact declaredMember?_line (List.mem_cons_self ..) (List.all_eq_true.mp hname) (by decide) hmark

theorem declaredMember?_readLine (h : ∀ c ∈ style.readName.toList, Target.isWordChar c = true) :
    declaredMember? (indentation 1 ++ readLine style c) = some style.readName := by
  have hopen : indentation 1 ++ "pub fn " = "    pub fn " := by decide
  have hangle : "<R: ::std::io::Read + ?Sized>(" = "<" ++ "R: ::std::io::Read + ?Sized>(" := by
    decide
  have hgroup (a b n m d e f g : String) : a ++ (b ++ n ++ (m ++ d) ++ e ++ f ++ g) =
      (a ++ b) ++ (n ++ (m ++ (d ++ e ++ f ++ g))) := by
    simp only [String.append_assoc]
  have hmark : "<".toList = ['<'] := rfl
  unfold readLine
  simp only [toString]
  rw [hangle, hgroup, hopen]
  exact declaredMember?_line (by decide) h (by decide) hmark

theorem declaredMember?_writeLine (h : ∀ c ∈ style.writeName.toList, Target.isWordChar c = true) :
    declaredMember? (indentation 1 ++ writeLine style) = some style.writeName := by
  have hopen : indentation 1 ++ "pub fn " = "    pub fn " := by decide
  have hangle : "<W: ::std::io::Write + ?Sized>(&self, w: &mut W) -> " =
      "<" ++ "W: ::std::io::Write + ?Sized>(&self, w: &mut W) -> " := by decide
  have hgroup (a b n m d e : String) : a ++ (b ++ n ++ (m ++ d) ++ e) =
      (a ++ b) ++ (n ++ (m ++ (d ++ e))) := by
    simp only [String.append_assoc]
  have hmark : "<".toList = ['<'] := rfl
  unfold writeLine
  simp only [toString]
  rw [hangle, hgroup, hopen]
  exact declaredMember?_line (by decide) h (by decide) hmark

/-! ## What the block declares -/

/-- The block of a codec declares its three members, and no others unless a name brings lines of its
own. -/
structure DeclaresOwn (style : Style) (c : Codec) : Prop where
  among : (ownMembers style).Sublist (declaredMembers (implText style c))
  alone : (∀ name ∈ c.names, Plain name) → declaredMembers (implText style c) = ownMembers style

theorem declaredMembers_implText : declaredMembers (implText style c) =
    (linesFrom 0 (implLines style c)).flatMap declaredMembers := by
  rw [implText, layout, layoutFrom_eq, declaredMembers_unlines]

section Words

variable (hread : ∀ c ∈ style.readName.toList, Target.isWordChar c = true)
  (hwrite : ∀ c ∈ style.writeName.toList, Target.isWordChar c = true)
include hread hwrite

/-- Three lines of an implementation declare its members. -/
theorem declaredMembers_ownLines :
    [indentation 1 ++ sizeLine c, indentation 1 ++ readLine style c,
      indentation 1 ++ writeLine style].flatMap declaredMembers = ownMembers style := by
  have hindent {text : String} (h : Plain text) : Plain (indentation 1 ++ text) :=
    plain_append.mpr ⟨plain_indentation 1, h⟩
  have hsize : Plain (sizeLine c) :=
    plain_append.mpr ⟨plain_append.mpr ⟨plain_ofList rfl, plain_repr _⟩, plain_ofList rfl⟩
  have hreadLine : Plain (readLine style c) := by
    have hreader : Plain (if c.decode.any DecodeStep.isRead then "r" else "_r") := by
      split <;> exact plain_ofList rfl
    unfold readLine
    simp only [toString, plain_append, plain_of_isWordChar hread, hreader, and_true]
    and_intros <;> exact plain_ofList rfl
  have hwriteLine : Plain (writeLine style) := by
    unfold writeLine
    simp only [toString, plain_append, plain_of_isWordChar hwrite, and_true]
    and_intros <;> exact plain_ofList rfl
  rw [List.flatMap_cons, List.flatMap_cons, List.flatMap_singleton,
    declaredMembers_plain (hindent hsize), declaredMembers_plain (hindent hreadLine),
    declaredMembers_plain (hindent hwriteLine), declaredMember?_sizeLine,
    declaredMember?_readLine hread, declaredMember?_writeLine hwrite]
  rfl

/-- The members are declared in order, whatever the names of the fields are. -/
theorem ownMembers_sublist : (ownMembers style).Sublist (declaredMembers (implText style c)) := by
  have hlines : [indentation 1 ++ sizeLine c, indentation 1 ++ readLine style c,
      indentation 1 ++ writeLine style].Sublist (linesFrom 0 (implLines style c)) := by
    have hfront (a b d e f m n : String) : [m, n].Sublist [a, b, d, m, e, f, n] :=
      .cons _ (.cons _ (.cons _ (.cons_cons _ (.cons _ (.cons _ (.refl _))))))
    have hmiddle (a b d m : String) : [m].Sublist [a, b, d, m] :=
      .cons _ (.cons _ (.cons _ (.refl _)))
    rw [linesFrom_implLines]
    -- The bodies and the closing lines may declare what they like.
    show ([_, _] ++ [] ++ [_] ++ [] ++ []).Sublist _
    exact ((((hfront ..).append (List.nil_sublist _)).append (hmiddle ..)).append
      (List.nil_sublist _)).append (List.nil_sublist _)
  rw [declaredMembers_implText, ← declaredMembers_ownLines (c := c) hread hwrite]
  exact hlines.flatMap declaredMembers

/-- With plain names no other line declares a member. -/
theorem declaredMembers_of_plain (hnames : ∀ name ∈ c.names, Plain name) :
    declaredMembers (implText style c) = ownMembers style := by
  -- What the struct derives does not matter to the block.
  have hplain : PlainNames { style with derives := [] } c :=
    ⟨plain_of_isWordChar hread, plain_of_isWordChar hwrite, List.forall_mem_nil _, hnames⟩
  have hlines : ∀ l ∈ linesFrom 0 (implLines style c), Plain l := fun l hl =>
    hplain.laid_implLines.plain_of_mem hl
  have hsplit := Text.split_unlines hlines ""
  have nothing {line : String} (hline : (line.toList.drop 4).head? ≠ some 'p')
      (rest : List String) :
      (line :: rest).filterMap declaredMember? = rest.filterMap declaredMember? := by
    rw [List.filterMap_cons, declaredMember?_eq_none hline]
  have hdecode := members_deeper (laidOut_decodeBody c) 0
  have hencode := members_deeper (laidOut_encodeBody c) 0
  rw [String.append_empty] at hsplit
  rw [implText, layout, layoutFrom_eq, declaredMembers, hsplit, List.filterMap_append,
    linesFrom_implLines, List.filterMap_append, List.filterMap_append, List.filterMap_append,
    List.filterMap_append, hdecode, hencode]
  rw [nothing (by simp), nothing (by simp), nothing (by simp [indentation]),
    List.filterMap_cons_some declaredMember?_sizeLine, nothing (by simp),
    nothing (by simp [indentation, toString]),
    List.filterMap_cons_some (declaredMember?_readLine hread), nothing (by simp [indentation]),
    nothing (by simp), nothing (by simp [indentation]),
    List.filterMap_cons_some (declaredMember?_writeLine hwrite), nothing (by simp [indentation]),
    nothing (by simp)]
  rfl

theorem declaresOwn : DeclaresOwn style c where
  among := ownMembers_sublist hread hwrite
  alone := declaredMembers_of_plain hread hwrite

end Words

/-! ## Which names are usable -/

theorem bareName_of_word {s : String} (h : IsIdentifierWord s) : bareName s = s := by
  unfold bareName
  split
  · rename_i rest hlist
    have hhash := h.continues (c := '#') (by simp [hlist])
    cases hhash
  · rfl

/-- Of names themselves those are legal that are no keywords and no paths. -/
theorem legalMember_iff_of_isName {name : String} (h : Text.isName name = true) :
    LegalMember name ↔ name ∉ keywords ∧ name ∉ Text.reservedPaths := by
  have hblank : name ≠ "_" := by
    rintro rfl
    cases h
  have hpaths : name ∉ Derive.neverRaw ↔ name ∉ Text.reservedPaths := by
    simp only [Derive.neverRaw, Text.reservedPaths, List.mem_cons, List.not_mem_nil, hblank]
    tauto
  rw [← hpaths]
  refine ⟨fun hlegal => ?_, fun ⟨hfree, hpath⟩ => .plain (isIdentifierWord_of_isName h) hfree hpath⟩
  generalize hspelled : name = spelled at hlegal
  cases hlegal with
  | plain word free noPath =>
    subst hspelled
    exact ⟨free, noPath⟩
  | raw word noPath => exact absurd hspelled (ne_raw h _)

/-- Legal names are usable when they are told apart, also from that of the constant. -/
theorem usable_ownMembers : Usable (ownMembers style) ↔
    LegalMember style.readName ∧ LegalMember style.writeName ∧
      bareName style.readName ≠ bareName style.writeName ∧
      bareName style.readName ≠ "WIRE_FIXED_SIZE" ∧
      bareName style.writeName ≠ "WIRE_FIXED_SIZE" := by
  have hsize : LegalMember "WIRE_FIXED_SIZE" :=
    .plain (isIdentifierWord_of_isName (by decide)) (by decide) (by decide)
  have hlegal : (∀ name ∈ ownMembers style, LegalMember name) ↔
      LegalMember style.readName ∧ LegalMember style.writeName := by
    simp only [ownMembers, List.forall_mem_cons, List.not_mem_nil, IsEmpty.forall_iff, implies_true,
      and_true, hsize, true_and]
  have hapart : ((ownMembers style).map bareName).Nodup ↔
      bareName style.readName ≠ bareName style.writeName ∧
        bareName style.readName ≠ "WIRE_FIXED_SIZE" ∧
        bareName style.writeName ≠ "WIRE_FIXED_SIZE" := by
    have hbare : bareName "WIRE_FIXED_SIZE" = "WIRE_FIXED_SIZE" := by decide
    show [bareName "WIRE_FIXED_SIZE", bareName style.readName, bareName style.writeName].Nodup ↔ _
    rw [hbare]
    simp only [List.nodup_cons, List.mem_cons, List.not_mem_nil, or_false, not_or, List.nodup_nil,
      not_false_eq_true, and_true]
    exact ⟨fun ⟨⟨hr, hw⟩, hne⟩ => ⟨hne, Ne.symm hr, Ne.symm hw⟩,
      fun ⟨hne, hr, hw⟩ => ⟨⟨Ne.symm hr, Ne.symm hw⟩, hne⟩⟩
  rw [Usable, hlegal, hapart, and_assoc]

end WireCodec.Source
