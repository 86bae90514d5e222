-- The law of a run. All sources are read before anything is printed, so the first
-- one that cannot be read decides what the run leaves behind. If there is none, the
-- batch of all their formulas is printed, and a strict run fails if one is left out.
import PrettyFormula.Proofs.Strictness
import PrettyFormula.Run

namespace PrettyFormula

open Token

/-! ## What there is to read -/

/-- The bytes of each source, or why there are none. -/
abbrev Contents := Source → Except ReadFailure ByteArray

namespace Contents

/-- What reading the sources gives. -/
def inputs (contents : Contents) : Inputs := fun source => contents source >>= decode

/-- The source can be read: its bytes are the text in UTF-8. -/
def Holds (contents : Contents) (source : Source) (t : Text) : Prop :=
  contents source = .ok t.utf8Encode

/-- Why the source cannot be read: its bytes are missing, or they are not UTF-8. -/
def failure (contents : Contents) (source : Source) : ReadFailure :=
  match contents source with
  | .error failure => failure
  | .ok _ => .notText

end Contents

variable {contents : Contents} {inputs : Inputs} {source : Source} {sources : List Source}
  {o : Options} {style : Style} {fs : List Formula} {t : Text}

theorem decode_utf8Encode (t : Text) : decode t.utf8Encode = .ok t := by
  have hvalid : t.utf8Encode.IsValidUTF8 := ⟨t, rfl⟩
  have hstring : String.fromUTF8? t.utf8Encode = some (String.ofList t) := dif_pos hvalid
  rw [decode, hstring]
  exact congrArg Except.ok String.toList_ofList

theorem decode_of_not_valid {bytes : ByteArray} (h : ¬ bytes.IsValidUTF8) :
    decode bytes = .error .notText := by
  have hstring : String.fromUTF8? bytes = none := dif_neg h
  rw [decode, hstring]

namespace Contents

theorem Holds.inputs_eq (h : contents.Holds source t) : contents.inputs source = .ok t := by
  rw [inputs, h]
  exact decode_utf8Encode t

theorem inputs_eq_error (h : ∀ t, ¬ contents.Holds source t) :
    contents.inputs source = .error (contents.failure source) := by
  unfold Holds at h
  unfold inputs failure
  cases hsource : contents source with
  | error failure => rfl
  | ok bytes =>
    refine decode_of_not_valid fun hvalid => ?_
    obtain ⟨t, rfl⟩ := hvalid
    exact h t hsource

end Contents

/-! ## Reading all sources -/

theorem formulasFrom_of_ok (h : inputs source = .ok t) :
    formulasFrom inputs source = .ok (formulasOf source.label t) := by
  rw [formulasFrom, h]

theorem formulasFrom_of_error {failure : ReadFailure} (h : inputs source = .error failure) :
    formulasFrom inputs source = .error (source, failure) := by
  rw [formulasFrom, h]

theorem mapM_formulasFrom_eq_ok {text : Source → Text} (h : ∀ s ∈ sources, inputs s = .ok (text s)) :
    sources.mapM (formulasFrom inputs) =
      .ok (sources.map fun s => formulasOf s.label (text s)) := by
  induction sources with
  | nil => rfl
  | cons s sources ih =>
    rw [List.mapM_cons, formulasFrom_of_ok (h s (by simp)), ih fun u hu => h u (by simp [hu])]
    rfl

theorem mapM_formulasFrom_eq_error {before : List Source} {failure : ReadFailure}
    (hbefore : ∀ s ∈ before, ∃ t, inputs s = .ok t) (h : inputs source = .error failure)
    (after : List Source) :
    (before ++ source :: after).mapM (formulasFrom inputs) = .error (source, failure) := by
  induction before with
  | nil =>
    rw [List.nil_append, List.mapM_cons, formulasFrom_of_error h]
    rfl
  | cons s before ih =>
    obtain ⟨t, ht⟩ := hbefore s (by simp)
    rw [List.cons_append, List.mapM_cons, formulasFrom_of_ok ht,
      ih fun u hu => hbefore u (by simp [hu])]
    rfl

theorem exists_first_unread (h : ∃ s ∈ sources, ∀ t, ¬ contents.Holds s t) :
    ∃ before source after, sources = before ++ source :: after ∧
      (∀ s ∈ before, ∃ t, contents.Holds s t) ∧ ∀ t, ¬ contents.Holds source t := by
  induction sources with
  | nil => simp at h
  | cons s sources ih =>
    by_cases hs : ∃ t, contents.Holds s t
    · obtain ⟨u, hu, hunread⟩ := h
      have hmem : u ∈ sources := by
        rcases List.mem_cons.mp hu with rfl | hu
        · exact absurd hs (not_exists.mpr hunread)
        · exact hu
      obtain ⟨before, source, after, rfl, hbefore, hsource⟩ := ih ⟨u, hmem, hunread⟩
      exact ⟨s :: before, source, after, rfl, List.forall_mem_cons.mpr ⟨hs, hbefore⟩, hsource⟩
    · exact ⟨[], s, sources, rfl, by simp, not_exists.mp hs⟩

/-! ## The formulas of a run -/

/-- The formulas of a text are its lines that are not blank, numbered as its lines from 1 on. -/
theorem mem_formulasOf_iff {label : String} {f : Formula} :
    f ∈ formulasOf label t ↔ f.source = label ∧ blankText f.text = false ∧ 1 ≤ f.line ∧
      (lines t)[f.line - 1]? = some f.text := by
  obtain ⟨source, line, text⟩ := f
  simp only [formulasOf, List.mem_filterMap, List.mem_zipIdx_iff_le_and_getElem?_sub]
  constructor
  · rintro ⟨⟨l, i⟩, ⟨hi, hl⟩, hf⟩
    split at hf
    · cases hf
    · rename_i hblank
      cases hf
      exact ⟨rfl, Bool.eq_false_iff.mpr hblank, hi, hl⟩
  · rintro ⟨rfl, hblank, hi, hl⟩
    exact ⟨(text, line), ⟨hi, hl⟩, by simp [hblank]⟩

theorem pairwise_line_formulasOf (label : String) (t : Text) :
    (formulasOf label t).Pairwise fun f g => f.line < g.line := by
  refine (pairwise_zipIdx (lines t) 1).filterMap _ fun x y hlt f hf g hg => ?_
  simp only [Option.ite_none_left_eq_some, Option.some.injEq] at hf hg
  obtain ⟨-, rfl⟩ := hf
  obtain ⟨-, rfl⟩ := hg
  exact hlt

theorem leftOut_eq_zero_iff :
    leftOut style fs = 0 ↔ ¬ (style.strict = true ∧ ∃ f ∈ fs, ¬ Balanced (scan f.text)) := by
  rw [leftOut_eq, List.length_eq_zero_iff, List.filter_eq_nil_iff]
  simp only [Style.admits, Bool.not_eq_true', Bool.or_eq_false_iff, Bool.not_eq_false',
    decide_eq_false_iff_not]
  constructor
  · rintro h ⟨hstrict, f, hf, hbalanced⟩
    exact h f hf ⟨hstrict, hbalanced⟩
  · rintro h f hf ⟨hstrict, hbalanced⟩
    exact h ⟨hstrict, f, hf, hbalanced⟩

/-! ## The run -/

theorem sources_of_files_eq_nil (h : o.files = []) : o.sources = [.stdin] := by
  simp [Options.sources, h]

theorem sources_of_files_ne_nil (h : o.files ≠ []) : o.sources = o.files.map .file := by
  simp [Options.sources, h]

/-- All that is said of a source that cannot be read. -/
theorem unread_eq (source : Source) (failure : ReadFailure) :
    ∃ name, (source = .stdin ∧ name = "stdin" ∨ source = .file name) ∧
      Outcome.unread source failure = {
        exit := 1
        stdout := []
        stderr := (s!"Error: failed to read formulas from {name}\n\nCaused by:\n" ++
          s!"    {failure.message}\n").toList } := by
  refine ⟨source.described, ?_, ?_⟩
  · cases source with
    | stdin => exact Or.inl ⟨rfl, rfl⟩
    | file name => exact Or.inr rfl
  · simp [Outcome.unread, written, toString]

theorem run_of_unread {before after : List Source} {failure : ReadFailure}
    (hsources : o.sources = before ++ source :: after)
    (hbefore : ∀ s ∈ before, ∃ t, inputs s = .ok t) (h : inputs source = .error failure) :
    run o inputs = .unread source failure := by
  rw [run, Options.formulas, hsources, mapM_formulasFrom_eq_error hbefore h]
  rfl

theorem formulas_of_read {text : Source → Text} (h : ∀ s ∈ o.sources, inputs s = .ok (text s)) :
    o.formulas inputs = .ok (batchOf (o.sources.map fun s => (s.label, text s))) := by
  rw [Options.formulas, mapM_formulasFrom_eq_ok h, batchOf, List.flatMap_map, List.flatMap_def]
  rfl

theorem run_of_formulas (h : o.formulas inputs = .ok fs) : run o inputs = .printed o fs := by
  rw [run, h]

theorem exit_printed (o : Options) (fs : List Formula) :
    ((Outcome.printed o fs).exit = 0 ∨ (Outcome.printed o fs).exit = 1) ∧
      ((Outcome.printed o fs).exit = 1 ↔
        o.style.strict = true ∧ ∃ f ∈ fs, ¬ Balanced (scan f.text)) := by
  have hexit : (Outcome.printed o fs).exit = if leftOut o.style fs = 0 then 0 else 1 := rfl
  rw [hexit]
  by_cases hleft : leftOut o.style fs = 0
  · rw [if_pos hleft]
    exact ⟨Or.inl rfl, iff_of_false (by decide) (leftOut_eq_zero_iff.mp hleft)⟩
  · rw [if_neg hleft]
    refine ⟨Or.inr rfl, iff_of_true rfl ?_⟩
    by_contra hbalanced
    exact hleft (leftOut_eq_zero_iff.mpr hbalanced)

/-- A run reads its files in order, or standard input if there are none. If one of these sources
cannot be read, the run prints nothing and reports no formula: it fails, and all that it says is
what the first such source is and why, whatever the others hold. Any other run prints the formulas
of all its sources, in order, each under the name of its source, and fails just where they have to
balance and one does not. The formulas of each source are numbered by its own lines. -/
theorem a_run_prints_all_of_its_inputs_or_nothing (o : Options) (contents : Contents) :
    (o.files = [] → o.sources = [.stdin]) ∧ (o.files ≠ [] → o.sources = o.files.map .file) ∧
      ((∃ s ∈ o.sources, ∀ t, ¬ contents.Holds s t) →
        ∃ before source after, o.sources = before ++ source :: after ∧
          (∀ s ∈ before, ∃ t, contents.Holds s t) ∧ (∀ t, ¬ contents.Holds source t) ∧
          ∃ name, (source = .stdin ∧ name = "stdin" ∨ source = .file name) ∧
            run o contents.inputs = {
              exit := 1
              stdout := []
              stderr := (s!"Error: failed to read formulas from {name}\n\nCaused by:\n" ++
                s!"    {(contents.failure source).message}\n").toList }) ∧
      (∀ text : Source → Text, (∀ s ∈ o.sources, contents.Holds s (text s)) →
        let outcome := run o contents.inputs
        let fs := batchOf (o.sources.map fun s => (s.label, text s))
        o.formulas contents.inputs = .ok fs ∧
          outcome.stdout = print o.style fs ∧ (outcome.exit = 0 ∨ outcome.exit = 1) ∧
          (outcome.exit = 1 ↔ o.style.strict = true ∧ ∃ f ∈ fs, ¬ Balanced (scan f.text))) ∧
      ∀ label t, ((formulasOf label t).Pairwise fun f g => f.line < g.line) ∧
        ∀ f, f ∈ formulasOf label t ↔ f.source = label ∧ blankText f.text = false ∧ 1 ≤ f.line ∧
          (lines t)[f.line - 1]? = some f.text := by
  refine ⟨sources_of_files_eq_nil, sources_of_files_ne_nil, fun h => ?_, fun text h => ?_,
    fun label t => ⟨pairwise_line_formulasOf label t, fun f => mem_formulasOf_iff⟩⟩
  · obtain ⟨before, source, after, hsources, hbefore, hsource⟩ := exists_first_unread h
    obtain ⟨name, hname, hunread⟩ := unread_eq source (contents.failure source)
    refine ⟨before, source, after, hsources, hbefore, hsource, name, hname, ?_⟩
    rw [← hunread]
    refine run_of_unread hsources (fun s hs => ?_) (Contents.inputs_eq_error hsource)
    obtain ⟨t, ht⟩ := hbefore s hs
    exact ⟨t, ht.inputs_eq⟩
  · intro outcome fs
    have hformulas : o.formulas contents.inputs = .ok fs :=
      formulas_of_read fun s hs => (h s hs).inputs_eq
    have houtcome : outcome = .printed o fs := run_of_formulas hformulas
    rw [houtcome]
    exact ⟨hformulas, rfl, exit_printed o fs⟩

/-- The second file is missing, so what the third one holds is not looked at; and where all files
can be read, a formula of each is left out. Without files there is one source. -/
theorem a_run_over_three_files :
    let o : Options := { files := ["a", "b", "c"], style := { strict := true } }
    let bare : Options := {}
    let t : Text := "(x)\n\ny)".toList
    let torn : Contents := fun s =>
      if s = .file "b" then .error .notFound
      else if s = .file "c" then .error .isDirectory
      else .ok t.utf8Encode
    let whole : Contents := fun _ => .ok t.utf8Encode
    (bare.files = [] ∧ bare.sources = [.stdin] ∧ bare.formulas whole.inputs =
        .ok [⟨"<stdin>", 1, "(x)".toList⟩, ⟨"<stdin>", 3, "y)".toList⟩]) ∧
      (o.files ≠ [] ∧ o.sources = [.file "a", .file "b", .file "c"]) ∧
      (∃ s ∈ o.sources, ∀ t, ¬ torn.Holds s t) ∧
      run o torn.inputs = {
        exit := 1
        stdout := []
        stderr := ("Error: failed to read formulas from b\n\nCaused by:\n" ++
          "    No such file or directory (os error 2)\n").toList } ∧
      (∀ s ∈ o.sources, whole.Holds s t) ∧
      o.formulas whole.inputs = .ok [⟨"a", 1, "(x)".toList⟩, ⟨"a", 3, "y)".toList⟩,
        ⟨"b", 1, "(x)".toList⟩, ⟨"b", 3, "y)".toList⟩, ⟨"c", 1, "(x)".toList⟩,
        ⟨"c", 3, "y)".toList⟩] ∧
      (run o whole.inputs).exit = 1 ∧
      (run o whole.inputs).stdout = "(x)\n(x)\n(x)\n".toList ∧
      ⟨"c", 3, "y)".toList⟩ ∈ formulasOf "c" t := by
  intro o bare t torn whole
  have hunread : ∃ s ∈ o.sources, ∀ t, ¬ torn.Holds s t :=
    ⟨.file "b", by decide, fun t h => by cases h⟩
  have hread : ∀ s ∈ o.sources, whole.Holds s t := fun _ _ => rfl
  obtain ⟨hbare, -, -, hstdin, -⟩ := a_run_prints_all_of_its_inputs_or_nothing bare whole
  obtain ⟨-, hfiles, hfirst, -, -⟩ := a_run_prints_all_of_its_inputs_or_nothing o torn
  obtain ⟨-, -, -, hall, hlines⟩ := a_run_prints_all_of_its_inputs_or_nothing o whole
  obtain ⟨before, source, after, hsources, hbefore, hsource, name, hname, hrun⟩ := hfirst hunread
  obtain ⟨hformulas, hstdout, -, hexit⟩ := hall (fun _ => t) hread
  obtain ⟨hformulas', -⟩ := hstdin (fun _ => t) fun _ _ => rfl
  have hb : source = .file "b" := by
    have hsources : [.file "a", .file "b", .file "c"] = before ++ source :: after := hsources
    rcases before with _ | ⟨s, _ | ⟨u, before⟩⟩
    · obtain ⟨rfl, -⟩ := List.cons.inj hsources
      exact absurd rfl (hsource t)
    · obtain ⟨-, hrest⟩ := List.cons.inj hsources
      exact (List.cons.inj hrest).1.symm
    · obtain ⟨-, hrest⟩ := List.cons.inj hsources
      obtain ⟨rfl, -⟩ := List.cons.inj hrest
      obtain ⟨v, hv⟩ := hbefore (.file "b") (by simp)
      cases hv
  subst hb
  obtain rfl : name = "b" := by simpa [eq_comm] using hname
  refine ⟨⟨rfl, hbare rfl, hformulas'.trans rfl⟩, ⟨by decide, hfiles (by decide)⟩, hunread,
    hrun.trans rfl, hread, hformulas.trans rfl, hexit.mpr (by decide),
    hstdout.trans (by decide), ?_⟩
  exact ((hlines "c" t).2 _).mpr (by decide)

end PrettyFormula
