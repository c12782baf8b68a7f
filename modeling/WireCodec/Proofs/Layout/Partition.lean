import Mathlib.Data.List.Chain
import WireCodec.Proofs.Layout.Cut

/-!
# The only partition

The groups of a struct lie one behind the other over all of its fields, each of them is a run of
fields of known size or one sequence, and no two runs are neighbours.  No other list of groups is
like that: where two such lists would first differ, the shorter of two runs ends in front of a
sequence, which the longer one would have to contain.
-/

namespace WireCodec

namespace Group

/-- Groups one behind the other from one index to another, none of them empty. -/
inductive Tiles : Nat → List Group → Nat → Prop where
  | nil (index : Nat) : Tiles index [] index
  | cons {index stop : Nat} {g : Group} {rest : List Group} (start : g.start = index)
    (some : 0 < g.length) (later : Tiles (index + g.length) rest stop) :
    Tiles index (g :: rest) stop

/-- No two neighbours are both fixed. -/
def Alternate (groups : List Group) : Prop :=
  groups.IsChain fun g h => ¬(g.isFixed = true ∧ h.isFixed = true)

/-- What the groups of fields are to be: they cover all fields in order, each is a whole run of
fields of known size with the sum of their bytes or a single sequence, and runs are maximal. -/
structure Partitions (fields : List Field) (groups : List Group) : Prop where
  tiles : Tiles 0 groups fields.length
  cut : ∀ g ∈ groups, g.CutFrom fields
  maximal : Alternate groups

/-! ## Indices -/

theorem contains_iff {g : Group} {index : Nat} :
    g.contains index = true ↔ g.start ≤ index ∧ index < g.start + g.length := by
  simp [contains]

theorem mem_slice {g : Group} {fields : List Field} {index : Nat} {field : Field}
    (hfield : fields[index]? = some field) (h : g.contains index = true) :
    field ∈ g.slice fields := by
  obtain ⟨hstart, hstop⟩ := contains_iff.mp h
  refine List.mem_iff_getElem?.mpr ⟨index - g.start, ?_⟩
  rw [slice, List.getElem?_take_of_lt (by omega), List.getElem?_drop, Nat.add_sub_cancel' hstart,
    hfield]

theorem length_slice {g : Group} {fields : List Field} (h : g.start + g.length ≤ fields.length) :
    (g.slice fields).length = g.length := by
  rw [slice, List.length_take, List.length_drop]
  omega

/-- A fixed group has no sequence in it. -/
theorem CutFrom.known_of_contains {fields : List Field} {g : Group} (hcut : g.CutFrom fields)
    (hfixed : g.isFixed = true) {index : Nat} (h : g.contains index = true) {field : Field}
    (hfield : fields[index]? = some field) : field.type.size?.isSome = true := by
  cases hcut with
  | run known extent => exact known field (mem_slice hfield h)
  | sequence slice type extent =>
    rw [isFixed, extent] at hfixed
    cases hfixed

/-- A group that is not fixed starts with a sequence. -/
theorem CutFrom.unknown_at_start {fields : List Field} {g : Group} (hcut : g.CutFrom fields)
    (hvariable : g.isFixed = false) :
    g.extent = .variable ∧ (g.slice fields).length = 1 ∧
      ∃ field, fields[g.start]? = some field ∧ field.type.size? = none := by
  cases hcut with
  | run known extent =>
    rw [isFixed, extent] at hvariable
    cases hvariable
  | @sequence field elem length slice type extent =>
    refine ⟨extent, by rw [slice]; rfl, field, ?_, by rw [type]; rfl⟩
    have hfirst : (g.slice fields)[0]? = some field := by rw [slice]; rfl
    have hpos : 0 < g.length := by
      apply Nat.pos_of_ne_zero
      intro hzero
      rw [Group.slice, hzero, List.take_zero] at slice
      cases slice
    rwa [Group.slice, List.getElem?_take_of_lt hpos, List.getElem?_drop] at hfirst

/-! ## Groups one behind the other -/

namespace Tiles

variable {index middle stop : Nat} {a b groups : List Group}

theorem le (h : Tiles index groups stop) : index ≤ stop := by
  induction h with
  | nil => exact Nat.le_refl _
  | cons start some later ih => omega

theorem append (ha : Tiles index a middle) (hb : Tiles middle b stop) :
    Tiles index (a ++ b) stop := by
  induction ha with
  | nil => exact hb
  | cons start some later ih => exact .cons start some (ih hb)

/-- Every group lies between the ends. -/
theorem bounds (h : Tiles index groups stop) {g : Group} (hg : g ∈ groups) :
    index ≤ g.start ∧ 0 < g.length ∧ g.start + g.length ≤ stop := by
  induction h with
  | nil => cases hg
  | cons start some later ih =>
    have hlater := later.le
    rcases List.mem_cons.mp hg with rfl | hg
    · omega
    · have := ih hg
      omega

/-- No index between the ends is left out. -/
theorem exists_contains (h : Tiles index groups stop) {i : Nat} (hle : index ≤ i) (hlt : i < stop) :
    ∃ g ∈ groups, g.contains i = true := by
  induction h with
  | nil => omega
  | @cons index stop g rest start some later ih =>
    by_cases hin : i < index + g.length
    · exact ⟨g, List.mem_cons_self .., contains_iff.mpr (by omega)⟩
    · obtain ⟨k, hk, hcontains⟩ := ih (by omega) hlt
      exact ⟨k, List.mem_cons_of_mem _ hk, hcontains⟩

/-- No two groups have an index in common. -/
theorem eq_of_contains (h : Tiles index groups stop) {g k : Group} (hg : g ∈ groups)
    (hk : k ∈ groups) {i : Nat} (hgi : g.contains i = true) (hki : k.contains i = true) : g = k := by
  rw [contains_iff] at hgi hki
  induction h with
  | nil => cases hg
  | cons start some later ih =>
    -- What stands behind the first group starts where that one ends.
    rcases List.mem_cons.mp hg with rfl | hg'
    · rcases List.mem_cons.mp hk with rfl | hk'
      · rfl
      · have := later.bounds hk'
        omega
    · rcases List.mem_cons.mp hk with rfl | hk'
      · have := later.bounds hg'
        omega
      · exact ih hg' hk'

/-- The group that is found for an index is the one that contains it. -/
theorem find?_eq_some (h : Tiles index groups stop) {i : Nat} {g : Group} :
    find? groups i = some g ↔ g ∈ groups ∧ g.contains i = true := by
  have of_find {k : Group} (hk : find? groups i = some k) : k ∈ groups ∧ k.contains i = true := by
    unfold find? at hk
    exact ⟨List.mem_of_find?_eq_some hk, List.find?_some (p := fun g : Group => g.contains i) hk⟩
  refine ⟨of_find, fun ⟨hg, hcontains⟩ => ?_⟩
  obtain ⟨k, hk⟩ : ∃ k, find? groups i = some k :=
    Option.isSome_iff_exists.mp (List.find?_isSome.mpr ⟨g, hg, hcontains⟩)
  obtain ⟨hmem, hki⟩ := of_find hk
  rw [hk, h.eq_of_contains hmem hg hki hcontains]

theorem isSome_find? (h : Tiles 0 groups stop) {i : Nat} :
    (find? groups i).isSome = true ↔ i < stop := by
  rw [find?, List.find?_isSome]
  constructor
  · rintro ⟨g, hg, hcontains⟩
    have := h.bounds hg
    rw [contains_iff] at hcontains
    omega
  · exact h.exists_contains (Nat.zero_le i)

end Tiles

/-! ## One partition at most -/

section Unique

variable {fields : List Field}

/-- Of two runs that start together neither is longer than one that is followed by no run. -/
theorem length_le_of_isFixed {g k : Group} {rest : List Group} {stop : Nat}
    (hg : g.isFixed = true) (hmaximal : Alternate (g :: rest))
    (hlater : Tiles (g.start + g.length) rest stop) (hrest : ∀ h ∈ rest, h.CutFrom fields)
    (hk : k.isFixed = true) (hcut : k.CutFrom fields) (hstart : k.start = g.start)
    (hstop : k.start + k.length ≤ stop) : k.length ≤ g.length := by
  apply Nat.le_of_not_lt
  intro hlt
  cases hlater with
  | nil => omega
  | @cons _ _ next rest start some later =>
    have hnext : next.isFixed = false := by
      have hpair := (List.isChain_cons_cons.mp hmaximal).1
      exact Bool.eq_false_iff.mpr fun h => hpair ⟨hg, h⟩
    obtain ⟨-, -, field, hfield, hsize⟩ :=
      (hrest next (List.mem_cons_self ..)).unknown_at_start hnext
    have hinside : k.contains next.start = true := contains_iff.mpr (by omega)
    have hknown := hcut.known_of_contains hk hinside hfield
    rw [hsize] at hknown
    cases hknown

/-- What starts where a sequence starts is a sequence. -/
theorem CutFrom.isFixed_of_start {g k : Group} (hg : g.CutFrom fields) (hk : k.CutFrom fields)
    (hstart : k.start = g.start) (hpos : 0 < k.length) (hvariable : g.isFixed = false) :
    k.isFixed = false := by
  obtain ⟨-, -, field, hfield, hsize⟩ := hg.unknown_at_start hvariable
  refine Bool.eq_false_iff.mpr fun hfixed => ?_
  have hknown := hk.known_of_contains hfixed (contains_iff.mpr (by omega)) hfield
  rw [hsize] at hknown
  cases hknown

/-- A group that was cut from fields is fixed by where it starts and ends. -/
theorem eq_of_extent {g k : Group} (hg : g.CutFrom fields) (hk : k.CutFrom fields)
    (hstart : g.start = k.start) (hlength : g.length = k.length) : g = k := by
  have hslice : g.slice fields = k.slice fields := by rw [slice, slice, hstart, hlength]
  have hextent : g.extent = k.extent := by
    cases hg with
    | run known extent =>
      cases hk with
      | run _ extent' => rw [extent, extent', hslice]
      | sequence slice type _ =>
        have hknown := known _ (by rw [hslice, slice]; exact List.mem_cons_self ..)
        rw [type] at hknown
        cases hknown
    | sequence slice type extent =>
      cases hk with
      | run known _ =>
        have hknown := known _ (by rw [← hslice, slice]; exact List.mem_cons_self ..)
        rw [type] at hknown
        cases hknown
      | sequence _ _ extent' => rw [extent, extent']
  cases g
  cases k
  simp_all

/-- There is one way to cut fields into maximal groups. -/
theorem Tiles.unique {index stop : Nat} {a b : List Group} (ha : Tiles index a stop)
    (hb : Tiles index b stop) (hstop : stop ≤ fields.length) (hcuta : ∀ g ∈ a, g.CutFrom fields)
    (hcutb : ∀ g ∈ b, g.CutFrom fields) (hmaxa : Alternate a) (hmaxb : Alternate b) : a = b := by
  induction ha generalizing b with
  | nil index =>
    cases hb with
    | nil => rfl
    | cons start some later =>
      have := later.le
      omega
  | @cons index stop g rest start some later ih =>
    cases hb with
    | nil =>
      have := later.le
      omega
    | @cons _ _ k rest' start' some' later' =>
      have hg := hcuta g (List.mem_cons_self ..)
      have hk := hcutb k (List.mem_cons_self ..)
      have hle := later.le
      have hle' := later'.le
      subst start
      -- Both are sequences or both are runs: sequences have length one, and runs end together.
      have hlength : g.length = k.length := by
        cases hfg : g.isFixed with
        | false =>
          have hfk := hg.isFixed_of_start hk start' some' hfg
          have hgl : (g.slice fields).length = g.length := length_slice (by omega)
          have hkl : (k.slice fields).length = k.length := length_slice (by omega)
          rw [← hgl, ← hkl, (hg.unknown_at_start hfg).2.1, (hk.unknown_at_start hfk).2.1]
        | true =>
          have hfk : k.isFixed = true := Bool.of_not_eq_false fun hfk => by
            rw [hk.isFixed_of_start hg start'.symm some hfk] at hfg
            cases hfg
          apply Nat.le_antisymm
          · exact length_le_of_isFixed hfk hmaxb (by rwa [start'])
              (fun h hh => hcutb h (List.mem_cons_of_mem _ hh)) hfg hg start'.symm (by omega)
          · exact length_le_of_isFixed hfg hmaxa later
              (fun h hh => hcuta h (List.mem_cons_of_mem _ hh)) hfk hk start' (by omega)
      obtain rfl := eq_of_extent hg hk start'.symm hlength
      rw [ih later' hstop (fun h hh => hcuta h (List.mem_cons_of_mem _ hh))
        (fun h hh => hcutb h (List.mem_cons_of_mem _ hh)) hmaxa.tail hmaxb.tail]

end Unique

/-! ## The groups of a struct -/

section OfFields

variable {start index : Nat} (bytes : Nat)

theorem tiles_closeRun (h : start ≤ index) : Tiles start (closeRun start index bytes) index := by
  unfold closeRun
  split
  · rename_i hlt
    have hstop : start + (index - start) = index := by omega
    refine .cons rfl (Nat.sub_pos_of_lt hlt) ?_
    rw [hstop]
    exact .nil index
  · rw [show start = index by omega]
    exact .nil index

theorem tiles_ofFieldsFrom (h : start ≤ index) (rest : List Field) :
    Tiles start (ofFieldsFrom start index bytes rest) (index + rest.length) := by
  induction rest generalizing start index bytes with
  | nil => exact tiles_closeRun bytes h
  | cons field rest ih =>
    rw [List.length_cons, Nat.add_comm rest.length, ← Nat.add_assoc, ofFieldsFrom]
    split
    · exact ih _ (by omega)
    · exact (tiles_closeRun bytes h).append (.cons rfl Nat.one_pos (ih 0 (Nat.le_refl _)))

/-- A run is only closed in front of a sequence, so no two runs touch. -/
theorem alternate_ofFieldsFrom (start index : Nat) (rest : List Field) :
    Alternate (ofFieldsFrom start index bytes rest) := by
  have alone (bytes start index : Nat) : Alternate (closeRun start index bytes) := by
    unfold closeRun
    split
    · exact .singleton _
    · exact .nil
  induction rest generalizing start index bytes with
  | nil => exact alone bytes start index
  | cons field rest ih =>
    rw [ofFieldsFrom]
    split
    · exact ih _ _ _
    · -- A sequence may stand next to anything.
      have behind : Alternate (⟨index, 1, .variable⟩ :: ofFieldsFrom (index + 1) (index + 1) 0 rest) :=
        List.isChain_cons.mpr ⟨fun _ _ h => Bool.noConfusion h.1, ih 0 _ _⟩
      unfold closeRun
      split
      · exact List.isChain_cons_cons.mpr ⟨fun h => Bool.noConfusion h.2, behind⟩
      · exact behind

end OfFields

/-- The groups of fields are a partition of them into maximal runs and single sequences. -/
theorem partitions_ofFields (fields : List Field) : Partitions fields (ofFields fields) where
  tiles := by
    have htiles := tiles_ofFieldsFrom 0 (Nat.le_refl 0) fields
    rwa [Nat.zero_add] at htiles
  cut _ hg := cut_of_mem hg
  maximal := alternate_ofFieldsFrom 0 0 0 fields

/-! ## Sizes -/

/-- The bytes of a group are the sizes of its fields, added up. -/
theorem CutFrom.bytes_eq {fields : List Field} {g : Group} (hcut : g.CutFrom fields) :
    runSize ((g.slice fields).filter (·.type.size?.isSome)) = (bytes? g).getD 0 := by
  cases hcut with
  | run known extent =>
    rw [List.filter_eq_self.mpr known, bytes?, extent]
    rfl
  | sequence slice type extent =>
    rw [slice, bytes?, extent, List.filter_cons, type]
    rfl

/-- The sizes of all groups add up to those of the fields of known size. -/
theorem fixedSize_eq {fields : List Field} {groups : List Group}
    (hcut : ∀ g ∈ groups, g.CutFrom fields) :
    fixedSize groups =
      runSize ((groups.flatMap (·.slice fields)).filter (·.type.size?.isSome)) := by
  induction groups with
  | nil => rfl
  | cons g rest ih =>
    have hfirst := (hcut g (List.mem_cons_self ..)).bytes_eq
    have hrest := ih fun k hk => hcut k (List.mem_cons_of_mem _ hk)
    rw [List.flatMap_cons, List.filter_append, runSize_append, hfirst, ← hrest, fixedSize, fixedSize,
      List.filterMap_cons]
    cases bytes? g with
    | none => exact (Nat.zero_add _).symm
    | some bytes =>
      rw [List.foldl_cons, Nat.add_comm 0 bytes]
      exact List.foldl_assoc

end Group

/-! ## Listings -/

/-- The line of a listing for a group, when the fields in it have the given names. -/
def Codec.groupLine (g : Group) (names : List String) : String :=
  let list := String.intercalate ", " names
  s!"    [{describe.extent g}] {list}\n"

/-- A description tells the name, the fixed size, every group with its fields, and the steps. -/
theorem Codec.describe_eq (c : Codec) : ∃ steps,
    c.describe =
      s!"struct {c.name} (fixed {c.fixedSize} bytes)\n" ++ "  groups:\n" ++
        String.join (c.groups.map fun g => groupLine g ((g.slice c.fields).map Field.name)) ++
        "  decode:\n" ++ steps := by
  have hdescribe : c.describe =
      s!"struct {c.name} (fixed {c.fixedSize} bytes)\n" ++ "  groups:\n" ++
        String.join (c.groups.map fun g => groupLine g ((g.slice c.fields).map Field.name)) ++
        "  decode:\n" ++ String.join (c.decode.map fun s => s!"    {s.text}\n") ++
        "  encode:\n" ++ String.join (c.encode.map fun s => s!"    {s.text}\n") := rfl
  refine ⟨String.join (c.decode.map fun s => s!"    {s.text}\n") ++
    ("  encode:\n" ++ String.join (c.encode.map fun s => s!"    {s.text}\n")), ?_⟩
  rw [hdescribe, String.append_assoc, String.append_assoc]

/-- The groups of fields are the one list of groups that partitions them.  Every field is found in
the one group that it belongs to, the sizes are those of the fields, and a listing names every field
once, in the line of its group. -/
theorem Group.partitions_iff_ofFields (fields : List Field) :
    (∀ groups, Partitions fields groups ↔ groups = ofFields fields) ∧
    (∀ i g, find? (ofFields fields) i = some g ↔ g ∈ ofFields fields ∧ g.contains i = true) ∧
    (∀ i, (find? (ofFields fields) i).isSome = true ↔ i < fields.length) ∧
    fixedSize (ofFields fields) = runSize (fields.filter (·.type.size?.isSome)) ∧
    (∀ g ∈ ofFields fields, ∀ bytes, g.extent = .fixed bytes →
      bytes ≤ largestFixed (ofFields fields)) ∧
    ∀ name, ∃ lists : List (List String),
      lists.flatten = fields.map Field.name ∧
      lists.map List.length = (ofFields fields).map Group.length ∧ ∃ steps,
        (StructType.compile ⟨name, fields⟩).describe =
          s!"struct {name} (fixed {fixedSize (ofFields fields)} bytes)\n" ++ "  groups:\n" ++
            String.join (List.zipWith Codec.groupLine (ofFields fields) lists) ++
            "  decode:\n" ++ steps := by
  have hpart := partitions_ofFields fields
  refine ⟨fun groups => ⟨fun h => ?_, fun h => h ▸ hpart⟩, fun i g => hpart.tiles.find?_eq_some,
    fun i => hpart.tiles.isSome_find?, ?_, fun g hg bytes h => (bytes_le hg h).1, fun name => ?_⟩
  · exact h.tiles.unique hpart.tiles (Nat.le_refl _) h.cut hpart.cut h.maximal hpart.maximal
  · rw [fixedSize_eq hpart.cut, flatMap_slice]
  · refine ⟨(ofFields fields).map fun g => (g.slice fields).map Field.name, ?_, ?_, ?_⟩
    · rw [← List.flatMap_def, ← List.map_flatMap, flatMap_slice]
    · rw [List.map_map]
      refine List.map_congr_left fun g hg => ?_
      rw [Function.comp_apply, List.length_map, length_slice (hpart.tiles.bounds hg).2.2]
    · rw [List.zipWith_map_right, List.zipWith_self]
      exact (StructType.compile ⟨name, fields⟩).describe_eq

end WireCodec
