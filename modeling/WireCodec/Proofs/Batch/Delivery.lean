import Mathlib.Data.List.Forall2
import WireCodec.Batch.Compile
import WireCodec.Proofs.Except
import WireCodec.Proofs.Schema.WellFormed

/-!
# Delivering what was selected

A delivery ends in one of five ways, and each of them is settled by what was asked for and by the
structs that were selected: no other struct of the schema matters.  `Delivered` lists the ways.  The
taker is not called before every selected struct has been compiled.
-/

namespace WireCodec

/-! ## Work on every item -/

section Items

variable {ε α β σ : Type}

/-- Work on all items succeeds exactly if it succeeds on each. -/
theorem mapM_eq_ok_iff {f : α → Except ε β} {items : List α} {results : List β} :
    items.mapM f = .ok results ↔ List.Forall₂ (fun a b => f a = .ok b) items results := by
  induction items generalizing results with
  | nil =>
    rw [List.mapM_nil, List.forall₂_nil_left_iff]
    exact ⟨fun h => (Except.ok.inj h).symm, fun h => h ▸ rfl⟩
  | cons a rest ih =>
    rw [List.mapM_cons, List.forall₂_cons_left_iff, bind_eq_ok]
    constructor
    · rintro ⟨b, hb, h⟩
      obtain ⟨later, hlater, h⟩ := bind_eq_ok.mp h
      exact ⟨b, later, hb, ih.mp hlater, (Except.ok.inj h).symm⟩
    · rintro ⟨b, later, hb, hlater, rfl⟩
      exact ⟨b, hb, by rw [ih.mpr hlater, ok_bind]; rfl⟩

theorem exists_left_of_mem {R : α → β → Prop} {as : List α} {bs : List β}
    (h : List.Forall₂ R as bs) {b : β} (hb : b ∈ bs) : ∃ a ∈ as, R a b := by
  induction h with
  | nil => cases hb
  | @cons a first as bs hfirst _ ih =>
    rcases List.mem_cons.mp hb with rfl | hb
    · exact ⟨a, List.mem_cons_self .., hfirst⟩
    · obtain ⟨c, hc, hrel⟩ := ih hb
      exact ⟨c, List.mem_cons_of_mem _ hc, hrel⟩

theorem exists_right_of_mem {R : α → β → Prop} {as : List α} {bs : List β}
    (h : List.Forall₂ R as bs) {a : α} (ha : a ∈ as) : ∃ b ∈ bs, R a b :=
  exists_left_of_mem (List.Forall₂.flip h) ha

theorem exists_forall₂ {R : α → β → Prop} {items : List α} (h : ∀ a ∈ items, ∃ b, R a b) :
    ∃ results, List.Forall₂ R items results := by
  induction items with
  | nil => exact ⟨[], .nil⟩
  | cons a rest ih =>
    obtain ⟨b, hb⟩ := h a (List.mem_cons_self ..)
    obtain ⟨results, hresults⟩ := ih fun c hc => h c (List.mem_cons_of_mem a hc)
    exact ⟨b :: results, .cons hb hresults⟩

/-- Work on every item fails as it does on the first item on which it fails. -/
theorem mapM_eq_error_iff {f : α → Except ε β} {items : List α} {e : ε} :
    items.mapM f = .error e ↔ ∃ front a back, items = front ++ a :: back ∧
      (∀ b ∈ front, ∃ r, f b = .ok r) ∧ f a = .error e := by
  induction items with
  | nil =>
    constructor
    · intro h
      cases h
    · rintro ⟨front, a, back, h, -⟩
      simp at h
  | cons a rest ih =>
    rw [List.mapM_cons, bind_eq_error]
    constructor
    · rintro (ha | ⟨b, hb, h⟩)
      · exact ⟨[], a, rest, rfl, by simp, ha⟩
      · rcases bind_eq_error.mp h with h | ⟨_, -, h⟩
        · obtain ⟨front, c, back, rfl, hfront, hc⟩ := ih.mp h
          refine ⟨a :: front, c, back, rfl, fun d hd => ?_, hc⟩
          rcases List.mem_cons.mp hd with rfl | hd
          · exact ⟨b, hb⟩
          · exact hfront d hd
        · cases h
    · rintro ⟨front, c, back, h, hfront, hc⟩
      cases front with
      | nil =>
        cases h
        exact .inl hc
      | cons d front =>
        cases h
        obtain ⟨b, hb⟩ := hfront a (List.mem_cons_self ..)
        have hrest := ih.mpr
          ⟨front, c, back, rfl, fun d hd => hfront d (List.mem_cons_of_mem a hd), hc⟩
        exact .inr ⟨b, hb, by rw [hrest]; rfl⟩

/-- Results that are made into others one by one may be made so after all of them are there. -/
theorem mapM_bind_ok (f : α → Except ε β) (g : β → σ) (items : List α) :
    items.mapM (fun a => f a >>= fun b => .ok (g b)) =
      items.mapM f >>= fun results => .ok (results.map g) := by
  induction items with
  | nil => rfl
  | cons a rest ih =>
    rw [List.mapM_cons, List.mapM_cons, ih]
    cases f a with
    | error e => rfl
    | ok b => cases rest.mapM f <;> rfl

end Items

/-! ## Offering -/

section Offering

variable {σ : Type} {take : σ → Codec → Except String σ}

theorem offerAll_eq_ok {state taken : σ} {codecs : List Codec} :
    offerAll take state codecs = (.ok (), taken) ↔ codecs.foldlM take state = .ok taken := by
  induction codecs generalizing state with
  | nil =>
    rw [offerAll, List.foldlM_nil]
    exact ⟨fun h => by cases h; rfl, fun h => by cases h; rfl⟩
  | cons c rest ih =>
    rw [offerAll, List.foldlM_cons]
    cases htake : take state c with
    | error reason =>
      rw [error_bind]
      exact ⟨fun h => (by cases h), fun h => (by cases h)⟩
    | ok next =>
      rw [ok_bind]
      exact ih

/-- The codecs in front of the first one that is refused are taken, and no other. -/
theorem offerAll_eq_error {state taken : σ} {codecs : List Codec} {error : SchemaError} :
    offerAll take state codecs = (.error error, taken) ↔ ∃ front c back reason,
      codecs = front ++ c :: back ∧ front.foldlM take state = .ok taken ∧
        take taken c = .error reason ∧ error = .refused reason := by
  induction codecs generalizing state with
  | nil =>
    constructor
    · intro h
      cases h
    · rintro ⟨front, c, back, reason, h, -⟩
      simp at h
  | cons c rest ih =>
    rw [offerAll]
    cases htake : take state c with
    | error reason =>
      constructor
      · intro h
        cases h
        exact ⟨[], c, rest, reason, rfl, rfl, htake, rfl⟩
      · rintro ⟨front, d, back, cause, h, hfront, hd, rfl⟩
        cases front with
        | nil =>
          cases h
          cases hfront
          rw [htake] at hd
          cases hd
          rfl
        | cons b front =>
          cases h
          rw [List.foldlM_cons, htake] at hfront
          cases hfront
    | ok next =>
      refine ih.trans ⟨?_, ?_⟩
      · rintro ⟨front, d, back, reason, rfl, hfront, hd, rfl⟩
        refine ⟨c :: front, d, back, reason, rfl, ?_, hd, rfl⟩
        rw [List.foldlM_cons, htake, ok_bind, hfront]
      · rintro ⟨front, d, back, reason, h, hfront, hd, rfl⟩
        cases front with
        | nil =>
          cases h
          cases hfront
          rw [htake] at hd
          cases hd
        | cons b front =>
          cases h
          rw [List.foldlM_cons, htake, ok_bind] at hfront
          exact ⟨front, d, back, reason, rfl, hfront, hd, rfl⟩

end Offering

/-! ## What was asked for -/

/-- Names in ascending order are settled by which names they are. -/
theorem eq_of_pairwise_lt {names others : List String} (hnames : names.Pairwise (· < ·))
    (hothers : others.Pairwise (· < ·)) (h : ∀ name, name ∈ names ↔ name ∈ others) :
    names = others := by
  have distinct {l : List String} (hl : l.Pairwise (· < ·)) : l.Nodup :=
    hl.imp (S := (· ≠ ·)) (by
      rintro a _ hlt rfl
      exact String.lt_irrefl a hlt)
  -- Nothing stands twice in such a list, so the lists are permutations of each other.
  have hperm := (List.perm_ext_iff_of_nodup (distinct hnames) (distinct hothers)).mpr h
  exact hperm.eq_of_pairwise (fun _ _ _ _ hab hba => absurd hba (String.lt_asymm hab)) hnames
    hothers

/-- The names that must be there; a selection of all structs asks for none in particular. -/
def Selection.requests : Selection → List String
  | all => []
  | only names => names.toList

namespace Schema

/-- A name that was asked for and is the name of no struct. -/
def Lacks (schema : Schema) (selection : Selection) (name : String) : Prop :=
  name ∈ selection.requests ∧ ∀ s ∈ schema.structs, s.name ≠ name

/-- The names told to be missing are those that are asked for and that the schema lacks. -/
theorem mem_missing {schema : Schema} {selection : Selection} {name : String} :
    name ∈ selection.missing schema.names ↔ schema.Lacks selection name := by
  cases selection with
  | all => simp [Selection.missing, Lacks, Selection.requests]
  | only names => simp [Selection.missing, Lacks, Selection.requests, Schema.names]

theorem pairwise_missing (schema : Schema) (selection : Selection) :
    (selection.missing schema.names).Pairwise (· < ·) := by
  cases selection with
  | all => exact .nil
  | only names => exact names.sorted.filter _

theorem missing_eq_nil {schema : Schema} {selection : Selection} :
    selection.missing schema.names = [] ↔ ∀ name, ¬schema.Lacks selection name := by
  rw [List.eq_nil_iff_forall_not_mem]
  exact forall_congr' fun name => not_congr mem_missing

/-- A name that was asked for is there when a selected struct has it. -/
theorem missing_selected (schema : Schema) (selection : Selection) :
    selection.missing schema.names =
      selection.missing ((schema.selected selection).map StructDecl.name) := by
  cases selection with
  | all => rfl
  | only names =>
    refine List.filter_congr fun name hname => congrArg not ?_
    rw [Bool.eq_iff_iff, List.contains_iff_mem, List.contains_iff_mem, Schema.names, List.mem_map,
      List.mem_map]
    refine exists_congr fun s => and_congr_left fun hs => ?_
    have haccepts : (Selection.only names).accepts s.name = true := by
      rw [hs]
      exact List.contains_iff_mem.mpr hname
    rw [Schema.selected, List.mem_filter, and_iff_left haccepts]

/-- The stages of a compilation: the names, the structs one by one, and whether there are any. -/
theorem compile_eq (schema : Schema) (selection : Selection) :
    schema.compile selection =
      if selection.missing schema.names = [] then
        (schema.selected selection).mapM (StructType.bind schema.aliases) >>= fun types =>
          if types = [] then .error .nothingSelected else .ok (types.map StructType.compile)
      else .error (.missing (selection.missing schema.names)) := by
  have hcodecs : (schema.selected selection).mapM schema.compileStruct =
      (schema.selected selection).mapM (StructType.bind schema.aliases) >>= fun types =>
        .ok (types.map StructType.compile) :=
    mapM_bind_ok _ _ _
  unfold Schema.compile
  rw [hcodecs]
  cases selection.missing schema.names with
  | cons name rest => rfl
  | nil =>
    cases (schema.selected selection).mapM (StructType.bind schema.aliases) with
    | error e => rfl
    | ok types => cases types <;> rfl

end Schema

/-! ## The ways in which a delivery ends -/

/-- How a delivery ends, and the state in which it leaves the taker. -/
inductive Delivered {σ : Type} (schema : Schema) (selection : Selection)
    (take : σ → Codec → Except String σ) (state : σ) : Except SchemaError Report → σ → Prop where
  /-- Names that were asked for are not there. -/
  | missing {names : List String} (some : names ≠ []) (sorted : names.Pairwise (· < ·))
    (lacked : ∀ name, name ∈ names ↔ schema.Lacks selection name) :
    Delivered schema selection take state (.error (.missing names)) state
  /-- All names are there, and a selected struct is at fault; those in front of it are not. -/
  | unbound {front back : List StructDecl} {s : StructDecl} {error : SchemaError}
    (present : ∀ name, ¬schema.Lacks selection name)
    (selected : schema.selected selection = front ++ s :: back)
    (bound : ∀ t ∈ front, ∃ type, StructType.bind schema.aliases t = .ok type)
    (fault : StructType.bind schema.aliases s = .error error) :
    Delivered schema selection take state (.error error) state
  /-- Nothing is wrong and nothing is selected. -/
  | nothing (present : ∀ name, ¬schema.Lacks selection name)
    (none : schema.selected selection = []) :
    Delivered schema selection take state (.error .nothingSelected) state
  /-- The codecs in front of one that the taker refuses were taken. -/
  | refused {front back : List StructType} {type : StructType} {taken : σ} {reason : String}
    (present : ∀ name, ¬schema.Lacks selection name)
    (bound : List.Forall₂ (fun s type => StructType.bind schema.aliases s = .ok type)
      (schema.selected selection) (front ++ type :: back))
    (took : front.foldlM (fun taken t => take taken t.compile) state = .ok taken)
    (refused : take taken type.compile = .error reason) :
    Delivered schema selection take state (.error (.refused reason)) taken
  /-- Every codec was taken. -/
  | handedOver {types : List StructType} {taken : σ}
    (present : ∀ name, ¬schema.Lacks selection name) (some : types ≠ [])
    (bound : List.Forall₂ (fun s type => StructType.bind schema.aliases s = .ok type)
      (schema.selected selection) types)
    (took : types.foldlM (fun taken t => take taken t.compile) state = .ok taken) :
    Delivered schema selection take state
      (.ok (types.map fun t => ⟨t.name, t.compile.fixedSize, t.compile.isFixedSize⟩)) taken

section Delivery

variable {σ : Type} {schema : Schema} {selection : Selection}
  {take : σ → Codec → Except String σ} {state : σ}

/-- Where compiling fails, nothing is offered. -/
theorem deliver_of_error {error : SchemaError} (h : schema.compile selection = .error error) :
    schema.deliver selection take state = (.error error, state) := by
  rw [Schema.deliver, h]

/-- Where compiling succeeds, the codecs are offered and reported in order. -/
theorem deliver_of_ok {codecs : List Codec} (h : schema.compile selection = .ok codecs) :
    schema.deliver selection take state =
      ((offerAll take state codecs).1.map fun () => codecs.map Codec.reportEntry,
        (offerAll take state codecs).2) := by
  rw [Schema.deliver, h]

/-- With no name missing, compiling binds the selected structs and asks for one at least. -/
theorem compile_of_present (present : ∀ name, ¬schema.Lacks selection name) :
    schema.compile selection =
      (schema.selected selection).mapM (StructType.bind schema.aliases) >>= fun types =>
        if types = [] then .error .nothingSelected else .ok (types.map StructType.compile) := by
  rw [Schema.compile_eq, if_pos (Schema.missing_eq_nil.mpr present)]

theorem compile_of_bound (present : ∀ name, ¬schema.Lacks selection name) {types : List StructType}
    (some : types ≠ [])
    (bound : List.Forall₂ (fun s type => StructType.bind schema.aliases s = .ok type)
      (schema.selected selection) types) :
    schema.compile selection = .ok (types.map StructType.compile) := by
  rw [compile_of_present present, mapM_eq_ok_iff.mpr bound, ok_bind, if_neg some]

/-- What the rules of delivery allow is what `deliver` gives. -/
theorem Delivered.deliver_eq {result : Except SchemaError Report} {taken : σ}
    (h : Delivered schema selection take state result taken) :
    schema.deliver selection take state = (result, taken) := by
  cases h with
  | @missing names some sorted lacked =>
    have hnames : selection.missing schema.names = names :=
      eq_of_pairwise_lt (Schema.pairwise_missing schema selection) sorted fun name =>
        Schema.mem_missing.trans (lacked name).symm
    refine deliver_of_error ?_
    rw [Schema.compile_eq, hnames, if_neg some]
  | unbound present selected bound fault =>
    refine deliver_of_error ?_
    rw [compile_of_present present, mapM_eq_error_iff.mpr ⟨_, _, _, selected, bound, fault⟩,
      error_bind]
  | nothing present none =>
    refine deliver_of_error ?_
    rw [compile_of_present present, none]
    rfl
  | @refused front back type taken reason present bound took refused =>
    have hcompile := compile_of_bound present (by simp) bound
    have hoffer : offerAll take state ((front ++ type :: back).map StructType.compile) =
        (.error (.refused reason), taken) :=
      offerAll_eq_error.mpr ⟨front.map StructType.compile, type.compile,
        back.map StructType.compile, reason, by simp, by rwa [List.foldlM_map], refused, rfl⟩
    rw [deliver_of_ok hcompile, hoffer]
    rfl
  | @handedOver types taken present some bound took =>
    have hcompile := compile_of_bound present some bound
    have hoffer : offerAll take state (types.map StructType.compile) = (.ok (), taken) :=
      offerAll_eq_ok.mpr (by rwa [List.foldlM_map])
    rw [deliver_of_ok hcompile, hoffer, List.map_map]
    rfl

/-- Every delivery ends in one of the ways. -/
theorem delivered_deliver (schema : Schema) (selection : Selection)
    (take : σ → Codec → Except String σ) (state : σ) :
    Delivered schema selection take state (schema.deliver selection take state).1
      (schema.deliver selection take state).2 := by
  -- The stages one after another: the names, the structs, whether there are any, and the taker.
  by_cases hmissing : selection.missing schema.names = []
  · have present := Schema.missing_eq_nil.mp hmissing
    have hcompile := compile_of_present present
    cases htypes : (schema.selected selection).mapM (StructType.bind schema.aliases) with
    | error error =>
      rw [htypes, error_bind] at hcompile
      obtain ⟨front, s, back, hselected, hbound, hfault⟩ := mapM_eq_error_iff.mp htypes
      rw [deliver_of_error hcompile]
      exact .unbound present hselected hbound hfault
    | ok types =>
      have bound := mapM_eq_ok_iff.mp htypes
      rw [htypes, ok_bind] at hcompile
      by_cases hnone : types = []
      · rw [if_pos hnone] at hcompile
        rw [hnone, List.forall₂_nil_right_iff] at bound
        rw [deliver_of_error hcompile]
        exact .nothing present bound
      · rw [if_neg hnone] at hcompile
        rw [deliver_of_ok hcompile]
        rcases hoffer : offerAll take state (types.map StructType.compile) with ⟨_ | _, taken⟩
        · obtain ⟨front, c, back, reason, hsplit, htook, hrefused, rfl⟩ :=
            offerAll_eq_error.mp hoffer
          obtain ⟨front, later, rfl, rfl, hlater⟩ := List.map_eq_append_iff.mp hsplit
          obtain ⟨type, back, rfl, rfl, rfl⟩ := List.map_eq_cons_iff.mp hlater
          rw [List.foldlM_map] at htook
          exact .refused present bound htook hrefused
        · have htook := offerAll_eq_ok.mp hoffer
          rw [List.foldlM_map] at htook
          have hentries : (types.map StructType.compile).map Codec.reportEntry =
              types.map fun t => ⟨t.name, t.compile.fixedSize, t.compile.isFixedSize⟩ := by
            rw [List.map_map]
            rfl
          show Delivered schema selection take state (.ok _) taken
          rw [hentries]
          exact .handedOver present hnone bound htook
  · have hcompile := Schema.compile_eq schema selection
    rw [if_neg hmissing] at hcompile
    rw [deliver_of_error hcompile]
    exact .missing hmissing (Schema.pairwise_missing schema selection) fun _ => Schema.mem_missing

/-- Schemas with the same aliases and the same selected structs are delivered alike. -/
theorem deliver_congr {other : Schema} (haliases : other.aliases = schema.aliases)
    (hselected : other.selected selection = schema.selected selection) :
    other.deliver selection take state = schema.deliver selection take state := by
  have hcompile : other.compile selection = schema.compile selection := by
    rw [Schema.compile_eq, Schema.compile_eq, Schema.missing_selected,
      Schema.missing_selected schema, haliases, hselected]
  rw [Schema.deliver, Schema.deliver, hcompile]

theorem names_of_bound {structs : List StructDecl} {types : List StructType}
    (bound : List.Forall₂ (fun s type => StructType.bind schema.aliases s = .ok type)
      structs types) :
    types.map StructType.name = structs.map StructDecl.name := by
  induction bound with
  | nil => rfl
  | cons hbind _ ih => rw [List.map_cons, List.map_cons, ih, StructType.name_of_bind hbind]

/-- A delivery ends as the first thing that is wrong says, and a report names the selected structs
in order.  Structs that are not selected change nothing: any others may stand in their place, or
none. -/
theorem deliver_iff_delivered (schema : Schema) (selection : Selection)
    (take : σ → Codec → Except String σ) (state : σ) :
    (∀ result taken, schema.deliver selection take state = (result, taken) ↔
      Delivered schema selection take state result taken) ∧
    (∀ report taken, schema.deliver selection take state = (.ok report, taken) →
      report.map ReportEntry.name = (schema.selected selection).map StructDecl.name) ∧
    ∀ structs : List StructDecl,
      structs.filter (selection.accepts ·.name) = schema.selected selection →
      Schema.deliver ⟨schema.aliases, structs⟩ selection take state =
        schema.deliver selection take state := by
  refine ⟨fun result taken => ⟨fun h => ?_, Delivered.deliver_eq⟩, fun report taken h => ?_,
    fun structs hstructs => deliver_congr rfl hstructs⟩
  · have hdelivered := delivered_deliver schema selection take state
    rwa [h] at hdelivered
  · have hdelivered := delivered_deliver schema selection take state
    rw [h] at hdelivered
    cases hdelivered with
    | handedOver present some bound took =>
      rw [List.map_map, ← names_of_bound bound]
      rfl

end Delivery

/-- A struct of no use: its only field has no name. -/
def brokenDecl : StructDecl := ⟨"Broken", [⟨"", .named "usize", none⟩]⟩

/-- The packet between broken structs is delivered as if it stood alone; a taker that takes nothing
is told of it only; and with the broken structs selected as well, nothing is offered. -/
theorem deliver_iff_delivered_telemetry :
    let schema : Schema := ⟨telemetryAliases, [brokenDecl, telemetryDecl, brokenDecl]⟩
    let wanted := Selection.only (.ofList ["Telemetry"])
    Schema.deliver schema wanted (fun names c => .ok (names ++ [c.name])) [] =
      (.ok [⟨"Telemetry", 7, false⟩], ["Telemetry"]) ∧
    ["Telemetry"] = (schema.selected wanted).map StructDecl.name ∧
    Delivered schema wanted (fun _ _ => .error "full") [] (.error (.refused "full"))
      ([] : List String) ∧
    Delivered schema .all (fun _ c => .ok [c.name]) []
      (.error (.field "Broken" "" .badFieldName)) ([] : List String) := by
  intro schema wanted
  obtain ⟨-, -, hother⟩ := deliver_iff_delivered ⟨telemetryAliases, [telemetryDecl]⟩ wanted
    (fun names c => .ok (names ++ [c.name])) ([] : List String)
  obtain ⟨-, hnames, -⟩ := deliver_iff_delivered schema wanted
    (fun names c => .ok (names ++ [c.name])) ([] : List String)
  obtain ⟨hfull, -, -⟩ := deliver_iff_delivered schema wanted (fun _ _ => .error "full")
    ([] : List String)
  obtain ⟨hall, -, -⟩ := deliver_iff_delivered schema .all (fun _ c => .ok [c.name])
    ([] : List String)
  have hdeliver : Schema.deliver schema wanted (fun names c => .ok (names ++ [c.name])) [] =
      (.ok [⟨"Telemetry", 7, false⟩], ["Telemetry"]) :=
    (hother schema.structs (by rfl)).trans (by rfl)
  exact ⟨hdeliver, hnames _ _ hdeliver, (hfull _ _).mp (by rfl), (hall _ _).mp (by rfl)⟩

end WireCodec
