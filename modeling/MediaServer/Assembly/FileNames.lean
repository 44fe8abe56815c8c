import MediaServer.Assembly.ConfigurationDiscovery

/-!
# Discovery of files with any name

Nothing keeps a configuration file from having a blank, a quote or a comma in
its name. `xargs` breaks words at blanks and takes quotes and backslashes for
itself, it starts a new line where its words do not fit on one, and Spring
breaks names at commas. This file follows the pipeline for all names without a
newline: it tells Spring the names of the files exactly when none of them has
such a character, nor `yml` before the extension, and they fit on one line.
-/

namespace MediaServer

open Foundation

namespace RunScript

/-- Spring is told exactly the names of the files, and `media-extra`. -/
def Told (x : Xargs) (files : List FoundFile) : Prop :=
  configNamesOf x (files.map FoundFile.name) =
    files.map FoundFile.base ++ ["media-extra".toList]

/-! ## What `xargs` takes for itself -/

theorem isBlank_of_isMeta {c : Char} (h : isMeta c = true) :
    isBlank c = false := by
  have hc : c ∈ "\"'\\".toList := by simpa [isMeta, isQuote, or_assoc] using h
  have hall : ("\"'\\".toList.all fun d => !isBlank d) = true := by decide
  simpa using List.all_eq_true.mp hall c hc

theorem isSpace_of_isMeta {c : Char} (h : isMeta c = true) :
    isSpace c = false := by
  have hc : c ∈ "\"'\\".toList := by simpa [isMeta, isQuote, or_assoc] using h
  have hall : ("\"'\\".toList.all fun d => !isSpace d) = true := by decide
  simpa using List.all_eq_true.mp hall c hc

theorem flatten_toList (word : Option (List Char)) :
    word.toList.flatten = word.getD [] := by
  cases word <;> simp

/-- `xargs` adds no quotes and backslashes. -/
theorem countP_xargsWords_le (r : Reading) (word : Option (List Char))
    (text : List Char) :
    (xargsWords r word text).1.flatten.countP isMeta ≤
      (word.getD []).countP isMeta + text.countP isMeta := by
  induction text generalizing r word with
  | nil =>
      cases r with
      | quoted quote => simp [xargsWords]
      | plain => simp [xargsWords, flatten_toList]
      | escaped => simp [xargsWords, flatten_toList]
  | cons c text ih =>
      have hword : ((word.getD [] ++ [c]).countP isMeta) + text.countP isMeta =
          (word.getD []).countP isMeta + (c :: text).countP isMeta := by
        simp only [List.countP_append, List.countP_cons, List.countP_nil]
        omega
      have hrest : text.countP isMeta ≤ (c :: text).countP isMeta := by
        rw [List.countP_cons]
        exact Nat.le_add_right _ _
      cases r with
      | plain =>
          have hnone := ih .plain none
          simp only [Option.getD_none, List.countP_nil] at hnone
          simp only [xargsWords]
          split_ifs with hblank hspace hquote hescape
          · rw [Prod.map_fst, List.flatten_append, List.countP_append,
              flatten_toList]
            omega
          · omega
          · have hquoted := ih (.quoted c) (some (word.getD []))
            simp only [Option.getD_some] at hquoted
            omega
          · have hescaped := ih .escaped word
            omega
          · have hplain := ih .plain (some (word.getD [] ++ [c]))
            simp only [Option.getD_some] at hplain
            omega
      | quoted quote =>
          simp only [xargsWords]
          split_ifs with hquote hline
          · have hplain := ih .plain word
            omega
          · simp
          · have hquoted := ih (.quoted quote) (some (word.getD [] ++ [c]))
            simp only [Option.getD_some] at hquoted
            omega
      | escaped =>
          have hplain := ih .plain (some (word.getD [] ++ [c]))
          simp only [xargsWords]
          simp only [Option.getD_some] at hplain
          omega

/-- The first of them does not come through. -/
theorem countP_xargsWords_lt {text : List Char}
    (h : ∃ c ∈ text, isMeta c = true) (word : Option (List Char)) :
    (xargsWords .plain word text).1.flatten.countP isMeta <
      (word.getD []).countP isMeta + text.countP isMeta := by
  induction text generalizing word with
  | nil => simp at h
  | cons c text ih =>
      rw [List.countP_cons]
      by_cases hmeta : isMeta c = true
      · rw [if_pos hmeta]
        -- `xargs` takes the character for itself
        simp only [xargsWords, isBlank_of_isMeta hmeta, isSpace_of_isMeta hmeta,
          Bool.and_false, Bool.false_eq_true, if_false]
        split_ifs with hquote hescape
        · have hquoted :=
            countP_xargsWords_le (.quoted c) (some (word.getD [])) text
          simp only [Option.getD_some] at hquoted
          omega
        · have hescaped := countP_xargsWords_le .escaped word text
          omega
        · simp [isMeta, hquote, hescape] at hmeta
      · have hlater : ∃ d ∈ text, isMeta d = true := by
          obtain ⟨d, hd, hdmeta⟩ := h
          rcases List.mem_cons.mp hd with rfl | hd
          · exact absurd hdmeta hmeta
          · exact ⟨d, hd, hdmeta⟩
        obtain ⟨hquote, hescape⟩ : isQuote c = false ∧ (c == '\\') = false := by
          simpa [isMeta] using hmeta
        have hnone := ih hlater none
        simp only [Option.getD_none, List.countP_nil] at hnone
        rw [if_neg hmeta]
        simp only [xargsWords, hquote, hescape, Bool.false_eq_true, if_false]
        split_ifs with hblank hspace
        · rw [Prod.map_fst, List.flatten_append, List.countP_append,
            flatten_toList]
          omega
        · omega
        · have hplain := ih hlater (some (word.getD [] ++ [c]))
          rw [Option.getD_some, List.countP_append, List.countP_singleton,
            if_neg hmeta] at hplain
          omega

/-- The lines that run are made of the words that were read. -/
theorem Xargs.commandLines_flatten (x : Xargs) (matched : Bool)
    (line words : List (List Char)) :
    (x.commandLines matched line words).flatten <+: line ++ words := by
  induction words generalizing line with
  | nil =>
      rw [commandLines]
      split_ifs
      · simp
      · exact List.nil_prefix
  | cons word words ih =>
      have hlater := ih (line ++ [word])
      rw [List.append_assoc, List.singleton_append] at hlater
      rw [commandLines]
      split_ifs
      · exact hlater
      · rw [List.flatten_cons]
        exact (List.prefix_append_right_inj line).mpr (ih [word])
      · simp
      · exact List.nil_prefix

/-! ## Quotes and backslashes -/

theorem countP_flatMap_echo (lines : List (List (List Char))) :
    (lines.flatMap echo).countP isMeta =
      lines.flatten.flatten.countP isMeta := by
  induction lines with
  | nil => rfl
  | cons line lines ih =>
      rw [List.flatMap_cons, List.countP_append, ih, List.flatten_cons,
        List.flatten_append, List.countP_append]
      unfold echo
      rw [List.countP_append, countP_intercalate (by decide)]
      rfl

theorem countP_xargsEcho_le (x : Xargs) (text : List Char) :
    (xargsEcho x text).countP isMeta ≤
      (xargsWords .plain none text).1.flatten.countP isMeta := by
  unfold xargsEcho
  show (List.flatMap echo (x.commandLines _ [] _)).countP isMeta ≤ _
  rw [countP_flatMap_echo]
  obtain ⟨unprinted, hwords⟩ := x.commandLines_flatten
    (xargsWords .plain none text).2 [] (xargsWords .plain none text).1
  rw [List.nil_append] at hwords
  conv_rhs => rw [← hwords, List.flatten_append, List.countP_append]
  exact Nat.le_add_right _ _

theorem countP_tr (text : List Char) :
    (tr ' ' ',' text).countP isMeta = text.countP isMeta := by
  unfold tr
  rw [List.countP_map]
  refine List.countP_congr fun c _ => ?_
  by_cases hc : c = ' '
  · subst hc
    decide
  · simp [hc]

theorem countP_sed_le (text : List Char) :
    (sed deleteYml text).countP isMeta ≤ text.countP isMeta := by
  have hlines : ∀ lines : List (List Char),
      (lines.map deleteYml).flatten.countP isMeta ≤
        lines.flatten.countP isMeta := by
    intro lines
    induction lines with
    | nil => exact Nat.le_refl _
    | cons line lines ih =>
        rw [List.map_cons, List.flatten_cons, List.flatten_cons,
          List.countP_append, List.countP_append]
        exact Nat.add_le_add ((replaceFrom_sublist 0 line).countP_le) ih
  have hjoin : text.countP isMeta =
      (text.splitOn '\n').flatten.countP isMeta := by
    rw [← countP_intercalate (b := '\n') (by decide), List.intercalate_splitOn]
  unfold sed
  rw [countP_intercalate (by decide), hjoin]
  exact hlines _

theorem countP_confFiles_le (x : Xargs) (names : List (List Char)) :
    (confFiles x names).countP isMeta ≤
      (xargsEcho x (findBasename names)).countP isMeta := by
  have hsubst : (confFiles x names).countP isMeta ≤
      (sed deleteYml (tr ' ' ','
        (xargsEcho x (findBasename names)))).countP isMeta :=
    (List.rdropWhile_prefix _ _).sublist.countP_le
  have hsed := countP_sed_le (tr ' ' ',' (xargsEcho x (findBasename names)))
  rw [countP_tr] at hsed
  exact hsubst.trans hsed

theorem countP_findBasename (files : List FoundFile) :
    (findBasename (files.map FoundFile.name)).countP isMeta =
      (files.map FoundFile.base).flatten.countP isMeta := by
  induction files with
  | nil => rfl
  | cons file files ih =>
      obtain ⟨-, -, hname⟩ := file.exists_name_eq
      have hcount : (file.name ++ ['\n']).countP isMeta =
          file.base.countP isMeta := by
        rw [hname, List.append_assoc, List.countP_append]
        rfl
      have hlist : findBasename ((file :: files).map FoundFile.name) =
          (file.name ++ ['\n']) ++
            findBasename (files.map FoundFile.name) := by
        simp [findBasename]
      rw [hlist, List.countP_append, hcount, ih, List.map_cons,
        List.flatten_cons, List.countP_append]

variable {x : Xargs} {files : List FoundFile}

/-- Before Spring breaks it up, what it is told is the names between commas. -/
theorem Told.configName_eq (h : Told x files) :
    configName x (files.map FoundFile.name) =
      [','].intercalate (files.map FoundFile.base ++ ["media-extra".toList]) := by
  rw [← h]
  exact (List.intercalate_splitOn ',').symm

/-- A quote or a backslash would be missing from what Spring is told. -/
theorem Told.isMeta_eq_false (h : Told x files) :
    ∀ c ∈ findBasename (files.map FoundFile.name), isMeta c = false := by
  by_contra hmeta
  simp only [not_forall, Bool.not_eq_false] at hmeta
  obtain ⟨c, hc, hmeta⟩ := hmeta
  have hlost := countP_xargsWords_lt ⟨c, hc, hmeta⟩ none
  have htold : (confFiles x (files.map FoundFile.name)).countP isMeta =
      (files.map FoundFile.base).flatten.countP isMeta := by
    have hcount := congrArg (List.countP isMeta) h.configName_eq
    unfold configName at hcount
    have hnone : ",media-extra".toList.countP isMeta = 0 := by decide
    have hextra : ["media-extra".toList].flatten.countP isMeta = 0 := by decide
    rw [countP_intercalate (by decide), List.flatten_append,
      List.countP_append, List.countP_append, hnone, hextra, Nat.add_zero,
      Nat.add_zero] at hcount
    exact hcount
  -- one is lost on the way, and no stage brings one in
  have hle := countP_confFiles_le x (files.map FoundFile.name)
  have hecho := countP_xargsEcho_le x (findBasename (files.map FoundFile.name))
  rw [htold, ← countP_findBasename] at hle
  simp only [Option.getD_none, List.countP_nil, Nat.zero_add] at hlost
  omega

/-! ## Blanks and commas -/

/-- Without quotes and backslashes the words have no blanks. -/
theorem isBlank_of_mem_xargsWords {text : List Char}
    (h : ∀ c ∈ text, isMeta c = false) (word : Option (List Char))
    (hword : ∀ c ∈ word.getD [], isBlank c = false) :
    ∀ w ∈ (xargsWords .plain word text).1, ∀ c ∈ w, isBlank c = false := by
  induction text generalizing word with
  | nil =>
      intro w hw
      obtain rfl : word = some w := by simpa [xargsWords] using hw
      exact hword
  | cons c text ih =>
      have hrest : ∀ d ∈ text, isMeta d = false :=
        fun d hd => h d (List.mem_cons_of_mem _ hd)
      obtain ⟨hquote, hescape⟩ : isQuote c = false ∧ (c == '\\') = false := by
        simpa [isMeta] using h c List.mem_cons_self
      simp only [xargsWords, hquote, hescape, Bool.false_eq_true, if_false]
      split_ifs with hblank hspace
      · intro w hw
        rw [Prod.map_fst] at hw
        rcases List.mem_append.mp hw with hw | hw
        · obtain rfl : word = some w := by simpa using hw
          exact hword
        · exact ih hrest none (by simp) w hw
      · exact ih hrest none (by simp)
      · apply ih hrest
        intro d hd
        rcases List.mem_append.mp hd with hd | hd
        · exact hword d hd
        · obtain rfl : d = c := by simpa using hd
          simpa using hblank

theorem mem_echo {words : List (List Char)} {c : Char} (h : c ∈ echo words) :
    c = ' ' ∨ c = '\n' ∨ ∃ w ∈ words, c ∈ w := by
  rcases List.mem_append.mp h with hc | hc
  · rcases mem_intercalate hc with hspace | hw
    · exact Or.inl hspace
    · exact Or.inr (Or.inr hw)
  · exact Or.inr (Or.inl (List.mem_singleton.mp hc))

theorem mem_xargsEcho {text : List Char} {c : Char}
    (h : c ∈ xargsEcho x text) :
    c = ' ' ∨ c = '\n' ∨ ∃ w ∈ (xargsWords .plain none text).1, c ∈ w := by
  obtain ⟨line, hline, hc⟩ := List.mem_flatMap.mp h
  have hstart := x.commandLines_flatten
    (xargsWords .plain none text).2 [] (xargsWords .plain none text).1
  rcases mem_echo hc with hspace | hend | ⟨w, hw, hc⟩
  · exact Or.inl hspace
  · exact Or.inr (Or.inl hend)
  · exact Or.inr (Or.inr
      ⟨w, hstart.subset (List.mem_flatten.mpr ⟨line, hline, hw⟩), hc⟩)

/-- All that the pipeline puts between the words is commas and newlines. -/
theorem mem_confFiles {names : List (List Char)} {c : Char}
    (h : c ∈ confFiles x names) :
    c = ',' ∨ c = '\n' ∨
      ∃ w ∈ (xargsWords .plain none (findBasename names)).1, c ∈ w := by
  have hsed : c ∈ sed deleteYml (tr ' ' ',' (xargsEcho x (findBasename names))) :=
    (List.rdropWhile_prefix _ _).subset h
  rcases mem_intercalate hsed with hend | ⟨line, hline, hc⟩
  · exact Or.inr (Or.inl hend)
  · obtain ⟨unedited, hunedited, rfl⟩ := List.mem_map.mp hline
    have htr : c ∈ tr ' ' ',' (xargsEcho x (findBasename names)) := by
      have hmem := mem_intercalate_of_mem (b := '\n') hunedited
        (mem_of_mem_deleteYml hc)
      rwa [List.intercalate_splitOn] at hmem
    obtain ⟨d, hd, rfl⟩ := List.mem_map.mp htr
    by_cases hspace : d = ' '
    · subst hspace
      exact Or.inl rfl
    · rw [if_neg (by simpa using hspace)]
      rcases mem_xargsEcho hd with hd | hd
      · exact absurd hd hspace
      · exact Or.inr hd

theorem mem_findBasename {names : List (List Char)} {name : List Char}
    (hname : name ∈ names) {c : Char} (hc : c ∈ name) :
    c ∈ findBasename names :=
  List.mem_flatMap.mpr ⟨name, hname, List.mem_append_left _ hc⟩

/-- The extension has no such character. -/
theorem FoundFile.mem_base {file : FoundFile} {c : Char} (hc : c ∈ file.name)
    (hext : c ∉ ".yml".toList) : c ∈ file.base := by
  obtain ⟨-, -, hname⟩ := file.exists_name_eq
  rw [hname] at hc
  exact (List.mem_append.mp hc).resolve_right hext

/-- A blank would be missing from what Spring is told. -/
theorem Told.isBlank_eq_false (h : Told x files) {file : FoundFile}
    (hfile : file ∈ files) (hline : '\n' ∉ file.name) :
    ∀ c ∈ file.name, isBlank c = false := by
  intro c hc
  by_contra hblank
  have hblank : isBlank c = true := by simpa using hblank
  have hother : ∀ text : List Char, (text.all fun d => !isBlank d) = true →
      c ∉ text := by
    intro text hall hmem
    simpa [hblank] using List.all_eq_true.mp hall c hmem
  have hbase : c ∈ file.base := FoundFile.mem_base hc (hother _ (by decide))
  have hmem : c ∈ configName x (files.map FoundFile.name) := by
    rw [h.configName_eq]
    refine mem_intercalate_of_mem (l := file.base) ?_ hbase
    exact List.mem_append_left _ (List.mem_map_of_mem hfile)
  rcases List.mem_append.mp hmem with hmem | hmem
  · rcases mem_confFiles hmem with rfl | rfl | ⟨w, hw, hcw⟩
    · exact absurd hblank (by decide)
    · exact hline hc
    · have hplain := isBlank_of_mem_xargsWords h.isMeta_eq_false none
        (by simp) w hw c hcw
      exact Bool.false_ne_true (hplain.symm.trans hblank)
  · exact hother _ (by decide) hmem

/-- A comma would break a name in two. -/
theorem Told.ne_comma (h : Told x files) :
    ∀ file ∈ files, ',' ∉ file.name := by
  intro file hfile hcomma
  have hbase : ',' ∈ file.base := FoundFile.mem_base hcomma (by decide)
  have htold : file.base ∈ configNamesOf x (files.map FoundFile.name) := by
    rw [h]
    exact List.mem_append_left _ (List.mem_map_of_mem hfile)
  exact not_mem_of_mem_splitOn htold hbase

theorem Told.plain (h : Told x files)
    (hline : ∀ file ∈ files, '\n' ∉ file.name) :
    ∀ file ∈ files, file.Plain := by
  intro file hfile c hc
  have hblank := h.isBlank_eq_false hfile (hline file hfile) c hc
  have hmeta := h.isMeta_eq_false c
    (mem_findBasename (List.mem_map_of_mem hfile) hc)
  have hcomma : c ≠ ',' := by
    rintro rfl
    exact h.ne_comma file hfile hc
  simp [plainChar, hblank, hmeta, hcomma]

/-! ## The command line -/

/-- If the first line has all the words, they fit on a line. -/
theorem Xargs.fits_of_head_commandLines {x : Xargs} {matched : Bool}
    {line words : List (List Char)} {lines : List (List (List Char))}
    (h : x.commandLines matched line words = (line ++ words) :: lines) :
    words = [] ∨ x.fits (line ++ words) = true := by
  induction words generalizing line with
  | nil => exact Or.inl rfl
  | cons word words ih =>
      right
      rw [commandLines] at h
      split_ifs at h with hfits hone heager
      · rw [List.append_cons line word words] at h ⊢
        rcases ih h with rfl | hrest
        · rwa [List.append_nil]
        · exact hrest
      · simp at h
      · simp at h

/-- The first line of the output, if there is another, ends before it. -/
theorem sed_echo_cons {line : List (List Char)} (text : List Char)
    (hline : ∀ word ∈ line, ∀ c ∈ word, isBlank c = false) :
    sed deleteYml (tr ' ' ',' (echo line ++ text)) =
      deleteYml ([','].intercalate line) ++
        '\n' :: sed deleteYml (tr ' ' ',' text) := by
  have hspace : ∀ word ∈ line, ' ' ∉ word :=
    fun word hword hc => absurd (hline word hword ' ' hc) (by decide)
  have hend : '\n' ∉ [','].intercalate line := by
    intro hmem
    rcases mem_intercalate hmem with hcomma | ⟨word, hword, hc⟩
    · exact absurd hcomma (by decide)
    · exact absurd (hline word hword '\n' hc) (by decide)
  have htr : tr ' ' ',' (echo line ++ text) =
      [','].intercalate line ++ '\n' :: tr ' ' ',' text := by
    have happend : tr ' ' ',' (echo line ++ text) =
        tr ' ' ',' (echo line) ++ tr ' ' ',' text := List.map_append
    rw [happend, tr_echo hspace, List.append_assoc]
    rfl
  unfold sed
  rw [htr, List.splitOn_append_cons_self_of_not_mem hend, List.map_cons]
  cases hrest : ((tr ' ' ',' text).splitOn '\n').map deleteYml with
  | nil =>
      rw [List.map_eq_nil_iff] at hrest
      exact absurd hrest (List.splitOn_ne_nil _ _)
  | cons next lines =>
      rw [List.intercalate_cons_cons, List.append_assoc]
      rfl

theorem Told.confFiles_eq (h : Told x files) (hne : files ≠ []) :
    confFiles x (files.map FoundFile.name) =
      [','].intercalate (files.map FoundFile.base) := by
  have hname := h.configName_eq
  rw [intercalate_concat (by simpa using hne)] at hname
  exact List.append_cancel_right hname

/-- The parts of plain names are plain. -/
theorem not_mem_base (hplain : ∀ file ∈ files, file.Plain) {c : Char}
    (hc : plainChar c = false) : ∀ base ∈ files.map FoundFile.base, c ∉ base := by
  intro base hbase hmem
  obtain ⟨file, hfile, rfl⟩ := List.mem_map.mp hbase
  obtain ⟨-, -, hname⟩ := file.exists_name_eq
  refine (hplain file hfile).not_mem hc ?_
  rw [hname]
  exact List.mem_append_left _ hmem

theorem intercalate_base_ne_nil (hne : files ≠ []) :
    [','].intercalate (files.map FoundFile.base) ≠ [] := by
  obtain ⟨file, files, rfl⟩ := List.exists_cons_of_ne_nil hne
  obtain ⟨middle, hbase, -⟩ := file.exists_name_eq
  have hm : 'm' ∈ file.base := by
    rw [hbase]
    exact List.mem_cons_self
  have hmem : 'm' ∈ [','].intercalate ((file :: files).map FoundFile.base) :=
    mem_intercalate_of_mem (l := file.base) List.mem_cons_self hm
  exact List.ne_nil_of_mem hmem

/-- Names that Spring is told stand on the first line. -/
theorem Told.exists_line (h : Told x files) (hne : files ≠ [])
    (hplain : ∀ file ∈ files, file.Plain) :
    ∃ line lines,
      x.commandLines true [] (files.map FoundFile.name) = line :: lines ∧
      [','].intercalate (files.map FoundFile.base) <+:
        deleteYml ([','].intercalate line) := by
  have hecho : xargsEcho x (findBasename (files.map FoundFile.name)) =
      (x.commandLines true [] (files.map FoundFile.name)).flatMap echo := by
    unfold xargsEcho
    rw [xargsWords_findBasename hplain]
  have hstart : [','].intercalate (files.map FoundFile.base) <+:
      sed deleteYml (tr ' ' ','
        ((x.commandLines true [] (files.map FoundFile.name)).flatMap echo)) := by
    rw [← h.confFiles_eq hne, ← hecho]
    exact List.rdropWhile_prefix _ _
  have hwords := x.commandLines_flatten true [] (files.map FoundFile.name)
  cases hlines : x.commandLines true [] (files.map FoundFile.name) with
  | nil =>
      rw [hlines] at hstart
      exact absurd (List.prefix_nil.mp hstart) (intercalate_base_ne_nil hne)
  | cons line lines =>
      refine ⟨line, lines, rfl, ?_⟩
      rw [hlines] at hstart hwords
      have hline : ∀ word ∈ line, ∀ c ∈ word, isBlank c = false := by
        intro word hword c hc
        have hmem : word ∈ files.map FoundFile.name :=
          hwords.subset (List.mem_flatten.mpr ⟨line, List.mem_cons_self, hword⟩)
        obtain ⟨file, hfile, rfl⟩ := List.mem_map.mp hmem
        have hchar := hplain file hfile c hc
        simp only [plainChar, Bool.not_eq_true', Bool.or_eq_false_iff] at hchar
        exact hchar.1.1
      -- no name has a newline: what is told stands before the first one
      rw [List.flatMap_cons, sed_echo_cons _ hline] at hstart
      refine prefix_of_not_mem hstart fun hmem => ?_
      rcases mem_intercalate hmem with hcomma | ⟨base, hbase, hc⟩
      · exact absurd hcomma (by decide)
      · exact not_mem_base hplain (by decide) base hbase hc

/-- That line then has all of them. -/
theorem Told.fits (h : Told x files) (hne : files ≠ [])
    (hplain : ∀ file ∈ files, file.Plain) :
    x.fits (files.map FoundFile.name) = true := by
  obtain ⟨line, lines, hlines, hstart⟩ := h.exists_line hne hplain
  have hwords := x.commandLines_flatten true [] (files.map FoundFile.name)
  rw [hlines, List.flatten_cons, List.nil_append] at hwords
  have hline : line <+: files.map FoundFile.name :=
    (List.prefix_append line lines.flatten).trans hwords
  -- there are as many commas as in the names, and editing adds none
  have hbases : ([','].intercalate (files.map FoundFile.base)).count ',' + 1 =
      (files.map FoundFile.base).length :=
    count_intercalate (by simpa using hne) (not_mem_base hplain (by decide))
  have hedited : ([','].intercalate (files.map FoundFile.base)).count ',' ≤
      ([','].intercalate line).count ',' :=
    (hstart.sublist.trans (replaceFrom_sublist 0 _)).count_le ','
  have hsome : line ≠ [] := by
    rintro rfl
    exact intercalate_base_ne_nil hne (List.prefix_nil.mp hstart)
  have hcommas := count_intercalate (b := ',') hsome fun name hname => by
    obtain ⟨file, hfile, rfl⟩ := List.mem_map.mp (hline.subset hname)
    exact (hplain file hfile).not_mem (by decide)
  have hall : line = files.map FoundFile.name := by
    refine hline.eq_of_length_le ?_
    rw [List.length_map] at hbases ⊢
    omega
  rw [hall] at hlines
  exact (Xargs.fits_of_head_commandLines hlines).resolve_left
    (by simpa using hne)

/-- **Discovery is faithful exactly for plain names without `yml`.** For files
of any names without a newline, and any `xargs`, Spring is told the names of
the files, each without its extension, and `media-extra`, if and only if there
is a file, the names fit on one command line, and no file has a blank, a
quote, a backslash or a comma in its name, nor `yml` before the extension. -/
theorem told_iff (x : Xargs) {files : List FoundFile}
    (hline : ∀ file ∈ files, '\n' ∉ file.name) :
    Told x files ↔
      files ≠ [] ∧ x.fits (files.map FoundFile.name) = true ∧
        ∀ file ∈ files, file.Plain ∧ ¬ "yml".toList <:+: file.base := by
  have hedited : x.fits (files.map FoundFile.name) = true →
      (∀ file ∈ files, file.Plain) → files ≠ [] →
      (Told x files ↔ ∀ file ∈ files, ¬ "yml".toList <:+: file.base) := by
    intro hfits hplain hne
    unfold Told
    rw [configNamesOf_eq hfits hplain hne, List.append_left_inj,
      List.map_inj_left]
    exact forall₂_congr fun file _ => deleteYml_name_iff file
  constructor
  · intro h
    have hne : files ≠ [] := by
      rintro rfl
      -- the empty line makes an empty name
      have hnone : configNamesOf x [] = [[], "media-extra".toList] := by
        have hecho : xargsEcho x (findBasename []) = ['
'] := rfl
        unfold configNamesOf configName confFiles
        rw [hecho]
        decide
      have htwo := congrArg List.length (hnone.symm.trans h)
      simp at htwo
    have hplain := h.plain hline
    have hfits := h.fits hne hplain
    have hyml := (hedited hfits hplain hne).mp h
    exact ⟨hne, hfits, fun file hfile => ⟨hplain file hfile, hyml file hfile⟩⟩
  · rintro ⟨hne, hfits, h⟩
    exact (hedited hfits (fun file hfile => (h file hfile).1) hne).mpr
      fun file hfile => (h file hfile).2

/-- One name has a letter that is not ASCII. -/
theorem told_iff_umlaut :
    let server : FoundFile := ⟨"media-server.yml".toList, by decide⟩
    let muenchen : FoundFile := ⟨"media-münchen.yml".toList, by decide⟩
    let files := [server, muenchen]
    Told .roomy files ↔
      files ≠ [] ∧ Xargs.roomy.fits (files.map FoundFile.name) = true ∧
        ∀ file ∈ files, file.Plain ∧ ¬ "yml".toList <:+: file.base :=
  told_iff .roomy (by decide)

end RunScript

end MediaServer
