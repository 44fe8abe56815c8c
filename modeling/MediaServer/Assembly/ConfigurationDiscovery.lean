import Mathlib.Data.List.DropRight
import Mathlib.Data.List.Nodup
import MediaServer.Foundation.Lists
import MediaServer.Foundation.Replace

/-!
# Configuration discovery in `run.sh`

The start script collects the names of the configuration files, joins them
with commas and deletes the extension with `sed 's|.yml||g'`; Spring loads the
configurations named between the commas. The script means the extension. The
pattern means any four characters that end in `yml`, anywhere in the text.
-/

namespace MediaServer

open Foundation

namespace RunScript

/-! ## The files -/

/-- The shell pattern `front*back`. -/
def glob (front back name : List Char) : Bool :=
  front.isPrefixOf name && back.isSuffixOf (name.drop front.length)

/-- `find`'s tests: `-name 'media-*.yml' ! -name "media-extra.yml"`. -/
def discovered (name : List Char) : Bool :=
  glob "media-".toList ".yml".toList name &&
    !(name == "media-extra.yml".toList)

/-- A configuration file that `find` comes upon. -/
structure FoundFile where
  name : List Char
  found : discovered name = true

/-- The name without its final `.yml`. -/
def FoundFile.base (file : FoundFile) : List Char :=
  file.name.take (file.name.length - ".yml".toList.length)

/-- Letters, digits, `.`, `_` and `-`. -/
def nameChar (c : Char) : Bool :=
  c.isAlphanum || c == '.' || c == '_' || c == '-'

/-- A configuration file with a name of such characters. -/
structure ConfFile extends FoundFile where
  chars : name.all nameChar = true

/-! ## The pipeline -/

/-- `find … -exec basename {} \\;` prints one name on a line. -/
def findBasename (names : List (List Char)) : List Char :=
  names.flatMap fun name => name ++ ['\n']

/-- What the versions of `xargs` do not have in common: which arguments fit on
one command line, and whether a line that has been begun still runs when an
error ends the program. -/
structure Xargs where
  fits : List (List Char) → Bool
  fits_of_append : ∀ words more, fits (words ++ more) = true → fits words = true
  eager : Bool

/-- Everything fits on one command line. -/
def Xargs.roomy : Xargs := ⟨fun _ => true, fun _ _ _ => rfl, false⟩

/-- How `xargs` reads the next character. -/
inductive Reading where
  | plain
  | quoted (quote : Char)
  | escaped
deriving DecidableEq

def isBlank (c : Char) : Bool := " \t\n".toList.contains c

/-- Blanks, carriage returns, vertical tabs and form feeds. -/
def isSpace (c : Char) : Bool :=
  isBlank c || "\r\x0b\x0c".toList.contains c

def isQuote (c : Char) : Bool := "\"'".toList.contains c

/-- The arguments `xargs` reads from its input, after the part `word` of the
one it is in, and whether it finds every quote matched. All white space before
an argument is skipped, but only a blank ends one. -/
def xargsWords : Reading → Option (List Char) → List Char →
    List (List Char) × Bool
  | .quoted _, _, [] => ([], false)
  | _, word, [] => (word.toList, true)
  | .plain, word, c :: text =>
      if isBlank c then
        (xargsWords .plain none text).map (word.toList ++ ·) id
      else if word.isNone && isSpace c then
        xargsWords .plain none text
      else if isQuote c then
        xargsWords (.quoted c) (some (word.getD [])) text
      else if c == '\\' then
        xargsWords .escaped word text
      else
        xargsWords .plain (some (word.getD [] ++ [c])) text
  | .quoted quote, word, c :: text =>
      if c == quote then
        xargsWords .plain word text
      else if c == '\n' then
        ([], false)
      else
        xargsWords (.quoted quote) (some (word.getD [] ++ [c])) text
  | .escaped, word, c :: text =>
      xargsWords .plain (some (word.getD [] ++ [c])) text

/-- The command lines `xargs` runs, after the arguments `line` of the one it
has begun. An unmatched quote or an argument too long for any line ends it. -/
def Xargs.commandLines (x : Xargs) (matched : Bool) :
    List (List Char) → List (List Char) → List (List (List Char))
  | line, [] => if matched || x.eager && !line.isEmpty then [line] else []
  | line, word :: words =>
      if x.fits (line ++ [word]) then
        x.commandLines matched (line ++ [word]) words
      else if x.fits [word] then
        line :: x.commandLines matched [word] words
      else if x.eager && !line.isEmpty then
        [line]
      else []

/-- `echo`, where the first word is no option. -/
def echo (words : List (List Char)) : List Char :=
  [' '].intercalate words ++ ['\n']

/-- `xargs echo`. -/
def xargsEcho (x : Xargs) (text : List Char) : List Char :=
  let (words, matched) := xargsWords .plain none text
  (x.commandLines matched [] words).flatMap echo

/-- `tr old new`, for one character. -/
def tr (old new : Char) (text : List Char) : List Char :=
  text.map fun c => if c == old then new else c

/-- The substitution `s|.yml||g` on a line: the pattern's dot is any
character. -/
def deleteYml (line : List Char) : List Char :=
  replaceAll (fun _ => true) (literal "yml".toList) [] line

/-- `sed` edits each line of its input. -/
def sed (edit : List Char → List Char) (text : List Char) : List Char :=
  ['\n'].intercalate ((text.splitOn '\n').map edit)

/-- `$(…)` drops the newlines at the end of the output. -/
def commandSubstitution (output : List Char) : List Char :=
  output.rdropWhile (· == '\n')

/-- `MS_CONF_FILES`, for discovered files of these names. -/
def confFiles (x : Xargs) (names : List (List Char)) : List Char :=
  commandSubstitution
    (sed deleteYml (tr ' ' ',' (xargsEcho x (findBasename names))))

/-- The value of `-Dspring.config.name`. -/
def configName (x : Xargs) (names : List (List Char)) : List Char :=
  confFiles x names ++ ",media-extra".toList

/-- The names between its commas. -/
def configNamesOf (x : Xargs) (names : List (List Char)) :
    List (List Char) :=
  (configName x names).splitOn ','

/-- The configuration names Spring reads, where the names of the files fit on
one command line. -/
def configNames (files : List ConfFile) : List (List Char) :=
  configNamesOf .roomy (files.map (·.name))

/-! ## Names -/

/-- What `xargs` takes for itself: quotes and the backslash. -/
def isMeta (c : Char) : Bool := isQuote c || c == '\\'

/-- No blank, no quote or backslash, no comma. -/
def plainChar (c : Char) : Bool := !(isBlank c || isMeta c || c == ',')

theorem plain_of_nameChar {c : Char} (hc : nameChar c = true) :
    plainChar c = true := by
  have hother : ∀ d, nameChar d = false → c ≠ d := by
    rintro d hd rfl
    exact Bool.false_ne_true (hd.symm.trans hc)
  have hspace := hother ' ' (by decide)
  have htab := hother '\t' (by decide)
  have hline := hother '\n' (by decide)
  have hdouble := hother '"' (by decide)
  have hsingle := hother '\'' (by decide)
  have hescape := hother '\\' (by decide)
  have hcomma := hother ',' (by decide)
  simp [plainChar, isBlank, isMeta, isQuote, hspace, htab, hline, hdouble,
    hsingle, hescape, hcomma]

/-- A discovered name is `media-`, something, and `.yml`. -/
theorem exists_name_eq_of_discovered {name : List Char}
    (hfound : discovered name = true) :
    ∃ middle, name.take (name.length - ".yml".toList.length) =
        "media-".toList ++ middle ∧
      name = name.take (name.length - ".yml".toList.length) ++
        ".yml".toList := by
  have hglob : glob "media-".toList ".yml".toList name = true := by
    simp only [discovered, Bool.and_eq_true] at hfound
    exact hfound.1
  simp only [glob, Bool.and_eq_true, List.isPrefixOf_iff_prefix,
    List.isSuffixOf_iff_suffix] at hglob
  obtain ⟨⟨rest, hrest⟩, hback⟩ := hglob
  rw [← hrest, List.drop_left] at hback
  obtain ⟨middle, hmiddle⟩ := hback
  have hname : name = ("media-".toList ++ middle) ++ ".yml".toList := by
    rw [← hrest, ← hmiddle, List.append_assoc]
  have hbase : name.take (name.length - ".yml".toList.length) =
      "media-".toList ++ middle := by
    rw [hname, List.length_append]
    exact List.take_left' (Nat.add_sub_cancel _ _).symm
  refine ⟨middle, hbase, ?_⟩
  rw [hbase]
  exact hname

theorem FoundFile.exists_name_eq (file : FoundFile) :
    ∃ middle, file.base = "media-".toList ++ middle ∧
      file.name = file.base ++ ".yml".toList :=
  exists_name_eq_of_discovered file.found

theorem FoundFile.exists_name_cons (file : FoundFile) :
    ∃ rest, file.name = 'm' :: rest := by
  obtain ⟨middle, hbase, hname⟩ := file.exists_name_eq
  rw [hname, hbase]
  exact ⟨_, rfl⟩

/-- The name has plain characters only. -/
def FoundFile.Plain (file : FoundFile) : Prop :=
  ∀ c ∈ file.name, plainChar c = true

theorem ConfFile.plain (file : ConfFile) : file.Plain :=
  fun _ hc => plain_of_nameChar (List.all_eq_true.mp file.chars _ hc)

theorem FoundFile.Plain.not_mem {file : FoundFile} (h : file.Plain) {c : Char}
    (hc : plainChar c = false) : c ∉ file.name :=
  fun hmem => Bool.false_ne_true (hc.symm.trans (h c hmem))

/-! ## `find … | xargs echo | tr` -/

/-- The rest of a plain word up to the end of its line. -/
theorem xargsWords_line {name : List Char}
    (hname : ∀ c ∈ name, plainChar c = true) (word text : List Char) :
    xargsWords .plain (some word) (name ++ '\n' :: text) =
      (xargsWords .plain none text).map ((word ++ name) :: ·) id := by
  induction name generalizing word with
  | nil =>
      rw [List.nil_append, List.append_nil, xargsWords]
      rfl
  | cons c name ih =>
      obtain ⟨⟨hblank, hquote, hescape⟩, -⟩ :
          (isBlank c = false ∧ isQuote c = false ∧ (c == '\\') = false) ∧
            (c == ',') = false := by
        simpa [plainChar, isMeta, and_assoc] using hname c List.mem_cons_self
      rw [List.cons_append, xargsWords]
      simp only [hblank, hquote, hescape, Bool.false_eq_true, if_false,
        Option.isNone_some, Bool.false_and, Option.getD_some]
      rw [ih (fun d hd => hname d (List.mem_cons_of_mem _ hd)),
        List.append_assoc, List.singleton_append]

/-- `xargs` reads plain names, one argument each. -/
theorem xargsWords_findBasename {files : List FoundFile}
    (h : ∀ file ∈ files, file.Plain) :
    xargsWords .plain none (findBasename (files.map FoundFile.name)) =
      (files.map FoundFile.name, true) := by
  induction files with
  | nil => rfl
  | cons file files ih =>
      have hlist : findBasename ((file :: files).map FoundFile.name) =
          file.name ++ '\n' :: findBasename (files.map FoundFile.name) := by
        simp [findBasename]
      obtain ⟨rest, hcons⟩ := file.exists_name_cons
      have hrest : ∀ c ∈ rest, plainChar c = true := fun c hc =>
        h file List.mem_cons_self c (hcons ▸ List.mem_cons_of_mem _ hc)
      rw [hlist, hcons, List.cons_append, xargsWords]
      simp only [show isBlank 'm' = false by decide,
        show isSpace 'm' = false by decide, show isQuote 'm' = false by decide,
        show ('m' == '\\') = false by decide, Bool.false_eq_true, if_false,
        Bool.and_false, Option.getD_none, List.nil_append]
      rw [xargsWords_line hrest,
        ih fun file hfile => h file (List.mem_cons_of_mem _ hfile),
        List.singleton_append, ← hcons]
      rfl

/-- What fits on one command line is put on one. -/
theorem Xargs.commandLines_of_fits {x : Xargs} {line words : List (List Char)}
    (h : x.fits (line ++ words) = true) :
    x.commandLines true line words = [line ++ words] := by
  induction words generalizing line with
  | nil => simp [commandLines]
  | cons word words ih =>
      rw [← List.singleton_append, ← List.append_assoc] at h ⊢
      rw [List.singleton_append, commandLines,
        if_pos (x.fits_of_append _ _ h)]
      exact ih h

theorem tr_of_not_mem {old new : Char} {text : List Char}
    (h : old ∉ text) : tr old new text = text := by
  unfold tr
  conv_rhs => rw [← List.map_id text]
  apply List.map_congr_left
  intro c hc
  have hne : c ≠ old := by
    rintro rfl
    exact h hc
  simp [hne]

/-- The line that comes out of `tr`: the words between commas. -/
theorem tr_echo {words : List (List Char)} (h : ∀ word ∈ words, ' ' ∉ word) :
    tr ' ' ',' (echo words) = [','].intercalate words ++ ['\n'] := by
  have hwords : words.map (tr ' ' ',') = words := by
    conv_rhs => rw [← List.map_id words]
    exact List.map_congr_left fun word hword => tr_of_not_mem (h word hword)
  unfold echo tr
  rw [List.map_append, map_intercalate]
  exact congrArg (fun words => [','].intercalate words ++ ['\n']) hwords

/-! ## `sed` and the command substitution -/

theorem mem_of_mem_deleteYml {line : List Char} {c : Char}
    (h : c ∈ deleteYml line) : c ∈ line :=
  mem_of_mem_replaceFrom h

/-- A single line is edited, and loses its end to the substitution. -/
theorem commandSubstitution_sed {line : List Char} (h : '\n' ∉ line) :
    commandSubstitution (sed deleteYml (line ++ ['\n'])) =
      deleteYml line := by
  have hsplit : (line ++ ['\n']).splitOn '\n' = [line, []] := by
    rw [List.splitOn_append_cons_self_of_not_mem h, List.splitOn_nil]
  have hsed : sed deleteYml (line ++ ['\n']) = deleteYml line ++ ['\n'] := by
    unfold sed
    rw [hsplit, List.map_cons, List.map_singleton,
      List.intercalate_cons_cons, List.intercalate_singleton]
    exact List.append_nil _
  -- editing leaves no newline at the end
  have hend : (deleteYml line).rdropWhile (· == '\n') = deleteYml line := by
    rw [List.rdropWhile_eq_self_iff]
    intro hne hlast
    apply h
    apply mem_of_mem_deleteYml
    rw [← beq_iff_eq.mp hlast]
    exact List.getLast_mem hne
  rw [hsed]
  unfold commandSubstitution
  rw [List.rdropWhile_concat_pos _ _ _ (by decide), hend]

/-- The pattern ends in letters that are no comma, and no name continues a
comma to a match. -/
theorem deleteYml_intercalate (files : List FoundFile) :
    deleteYml ([','].intercalate (files.map FoundFile.name)) =
      [','].intercalate (files.map fun file => deleteYml file.name) := by
  unfold deleteYml
  rw [replaceAll_intercalate (by decide), List.map_map]
  · rfl
  · intro name hname t
    obtain ⟨file, -, rfl⟩ := List.mem_map.mp hname
    obtain ⟨middle, hbase, hname⟩ := file.exists_name_eq
    rw [hname, hbase]
    rfl

section PlainNames

variable {x : Xargs} {files : List FoundFile}
  (hfits : x.fits (files.map FoundFile.name) = true)
  (hplain : ∀ file ∈ files, file.Plain)

include hfits hplain

theorem confFiles_eq :
    confFiles x (files.map FoundFile.name) =
      [','].intercalate (files.map fun file => deleteYml file.name) := by
  have hspace : ∀ name ∈ files.map FoundFile.name, ' ' ∉ name := by
    intro name hname
    obtain ⟨file, hfile, rfl⟩ := List.mem_map.mp hname
    exact (hplain file hfile).not_mem (by decide)
  have hline : '\n' ∉ [','].intercalate (files.map FoundFile.name) := by
    intro hmem
    rcases mem_intercalate hmem with hcomma | ⟨name, hname, hmem⟩
    · exact absurd hcomma (by decide)
    · obtain ⟨file, hfile, rfl⟩ := List.mem_map.mp hname
      exact (hplain file hfile).not_mem (by decide) hmem
  have hecho : xargsEcho x (findBasename (files.map FoundFile.name)) =
      echo (files.map FoundFile.name) := by
    unfold xargsEcho
    rw [xargsWords_findBasename hplain]
    show (x.commandLines true [] _).flatMap echo = _
    rw [x.commandLines_of_fits hfits]
    exact List.append_nil _
  unfold confFiles
  rw [hecho, tr_echo hspace, commandSubstitution_sed hline,
    deleteYml_intercalate]

/-- Spring reads one name for each file, edited on its own, and then
`media-extra`. -/
theorem configNamesOf_eq (hne : files ≠ []) :
    configNamesOf x (files.map FoundFile.name) =
      (files.map fun file => deleteYml file.name) ++
        ["media-extra".toList] := by
  have hjoin : configName x (files.map FoundFile.name) = [','].intercalate
      ((files.map fun file => deleteYml file.name) ++
        ["media-extra".toList]) := by
    rw [intercalate_concat (by simpa using hne)]
    unfold configName
    rw [confFiles_eq hfits hplain]
    rfl
  unfold configNamesOf
  rw [hjoin]
  apply List.splitOn_intercalate
  · intro name hname
    rcases List.mem_append.mp hname with hname | hextra
    · obtain ⟨file, hfile, rfl⟩ := List.mem_map.mp hname
      intro hcomma
      exact (hplain file hfile).not_mem (by decide) (mem_of_mem_deleteYml hcomma)
    · rw [List.mem_singleton.mp hextra]
      decide
  · simp

end PlainNames

theorem configNames_eq {files : List ConfFile} (h : files ≠ []) :
    configNames files =
      (files.map fun file => deleteYml file.name) ++
        ["media-extra".toList] := by
  have hplain : ∀ file ∈ files.map ConfFile.toFoundFile, file.Plain := by
    intro file hfile
    obtain ⟨file, -, rfl⟩ := List.mem_map.mp hfile
    exact file.plain
  have heq := configNamesOf_eq (x := .roomy) rfl hplain (by simpa using h)
  rw [List.map_map, List.map_map] at heq
  exact heq

/-! ## When a name survives -/

/-- The extension is always deleted, on its own. -/
theorem deleteYml_append_yml (text : List Char) :
    deleteYml (text ++ ".yml".toList) = deleteYml text := by
  show replaceAll _ _ [] (text ++ '.' :: "yml".toList) = _
  rw [replaceAll_append (by decide)]
  exact List.append_nil _

theorem deleteYml_name (file : FoundFile) :
    deleteYml file.name = deleteYml file.base := by
  obtain ⟨-, -, hname⟩ := file.exists_name_eq
  rw [hname, deleteYml_append_yml]

/-- A text that does not begin with it contains `yml` exactly if something
in the text stands before it. -/
theorem deleteYml_eq_self_iff {c : Char} (hc : c ≠ 'y') (text : List Char) :
    deleteYml (c :: text) = c :: text ↔ ¬ "yml".toList <:+: c :: text := by
  unfold deleteYml
  rw [replaceAll_eq_self_iff, List.infix_iff_prefix_suffix]
  constructor
  · rintro h ⟨t, hyml, hsuffix⟩
    rcases List.suffix_cons_iff.mp hsuffix with rfl | hsuffix
    · exact hc (List.cons_prefix_cons.mp hyml).1.symm
    · obtain ⟨front, rfl⟩ := hsuffix
      -- the character before the match is the one for the dot
      obtain ⟨rest, b, hb⟩ : ∃ rest b, c :: front = rest ++ [b] :=
        ⟨_, _, (List.dropLast_append_getLast (List.cons_ne_nil c front)).symm⟩
      have hmatch := h b t ⟨rest, by
        rw [← List.cons_append, hb, List.append_assoc]
        rfl⟩
      rw [Bool.true_and, matchesAt_literal_iff.mpr hyml] at hmatch
      exact Bool.noConfusion hmatch
  · intro h a t hsuffix
    rw [Bool.true_and, Bool.eq_false_iff]
    intro hmatch
    exact h ⟨t, matchesAt_literal_iff.mp hmatch,
      (List.suffix_cons a t).trans hsuffix⟩

theorem deleteYml_name_iff (file : FoundFile) :
    deleteYml file.name = file.base ↔ ¬ "yml".toList <:+: file.base := by
  rw [deleteYml_name]
  obtain ⟨middle, hbase, -⟩ := file.exists_name_eq
  rw [hbase]
  exact deleteYml_eq_self_iff (by decide) _

/-! ## What Spring is told -/

/-- The names say which files were discovered: in order, each without its
extension and otherwise unchanged, `media-extra` last; with the extension back
they are the files' names, and distinct files have distinct names. -/
structure Faithful (files : List ConfFile) (names : List (List Char)) :
    Prop where
  exact : names = files.map (·.base) ++ ["media-extra".toList]
  restored : names.map (· ++ ".yml".toList) =
    files.map (·.name) ++ ["media-extra.yml".toList]
  distinct : (files.map (·.name)).Nodup → names.Nodup

theorem FoundFile.name_ne_extra (file : FoundFile) :
    file.name ≠ "media-extra.yml".toList := by
  have hfound := file.found
  simp only [discovered, Bool.and_eq_true, Bool.not_eq_true',
    beq_eq_false_iff_ne] at hfound
  exact hfound.2

theorem faithful_of_eq {files : List ConfFile} {names : List (List Char)}
    (h : names = files.map (·.base) ++ ["media-extra".toList]) :
    Faithful files names := by
  have hrestored : names.map (· ++ ".yml".toList) =
      files.map (·.name) ++ ["media-extra.yml".toList] := by
    rw [h, List.map_append, List.map_map]
    congr 1
    apply List.map_congr_left
    intro file _
    obtain ⟨-, -, hname⟩ := file.exists_name_eq
    exact hname.symm
  refine ⟨h, hrestored, fun hnodup => ?_⟩
  apply List.Nodup.of_map (· ++ ".yml".toList)
  rw [hrestored]
  apply List.Nodup.append hnodup (List.nodup_singleton _)
  rw [List.disjoint_singleton]
  intro hextra
  obtain ⟨file, -, hname⟩ := List.mem_map.mp hextra
  exact file.name_ne_extra hname

/-- **Discovery is faithful exactly without `yml` in a name proper.** For any
discovered files the configuration names are those of the files if and only
if no file has `yml` in its name before the extension. -/
theorem configNames_faithful_iff {files : List ConfFile} (h : files ≠ []) :
    Faithful files (configNames files) ↔
      ∀ file ∈ files, ¬ "yml".toList <:+: file.base := by
  have hexact : configNames files =
      files.map (·.base) ++ ["media-extra".toList] ↔
      ∀ file ∈ files, deleteYml file.name = file.base := by
    rw [configNames_eq h, List.append_left_inj, List.map_inj_left]
  constructor
  · intro hfaithful file hfile
    exact (deleteYml_name_iff file.toFoundFile).mp (hexact.mp hfaithful.exact file hfile)
  · intro hyml
    apply faithful_of_eq
    apply hexact.mpr
    intro file hfile
    exact (deleteYml_name_iff file.toFoundFile).mpr (hyml file hfile)

theorem configNames_faithful_iff_server :
    let server : ConfFile := ⟨⟨"media-server.yml".toList, by decide⟩, by decide⟩
    let player : ConfFile := ⟨⟨"media-player.yml".toList, by decide⟩, by decide⟩
    Faithful [server, player] (configNames [server, player]) ↔
      ∀ file ∈ [server, player], ¬ "yml".toList <:+: file.base :=
  configNames_faithful_iff (List.cons_ne_nil _ _)

/-- Two plugin files whose names end in `yml` before the extension: Spring is
told the same name twice, and it is the name of neither. -/
theorem configNames_not_faithful :
    let ayml : ConfFile := ⟨⟨"media-ayml.yml".toList, by decide⟩, by decide⟩
    let byml : ConfFile := ⟨⟨"media-byml.yml".toList, by decide⟩, by decide⟩
    configNames [ayml, byml] =
        ["media-".toList, "media-".toList, "media-extra".toList] ∧
      ¬ Faithful [ayml, byml] (configNames [ayml, byml]) := by
  refine ⟨by decide, fun hfaithful => ?_⟩
  exact absurd hfaithful.exact (by decide)

end RunScript

end MediaServer
