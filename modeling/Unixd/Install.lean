import Unixd.Lib.UnitFile
import Unixd.Transport

/-!
# Installing a systemd service

The unit files that `install` writes on Linux, and what systemd reads in the service unit. A word comes
back exactly when it is UTF-8 on one line, and the program has no `$`, which systemd does not read there.
-/

namespace Unixd

open Unixd.Lib Unixd.Lib.UnitFile

structure Service where
  name : Text
  major : UInt16

inductive InstallError where
  | noBaseDirectory (var : Text)
  | socketPathTooLong (path : Bytes) (limit : ℕ)

/-- `<name>-v<major>`: the systemd unit name and the socket's file name. -/
def Service.label (service : Service) : Text :=
  service.name ++ "-v".toList ++ decimal service.major.toNat

/-- `Path::join`. -/
def joinPath (base path : Bytes) : Bytes :=
  if path.head? = some (asciiByte '/') then path
  else if base = [] ∨ base.getLast? = some (asciiByte '/') then base ++ path
  else base ++ asciiByte '/' :: path

def absoluteEnv (env : Text → Option Bytes) (var : Text) : Except InstallError Bytes :=
  match env var with
  | some path => if path.head? = some (asciiByte '/') then .ok path else .error (.noBaseDirectory var)
  | none => .error (.noBaseDirectory var)

def maxSocketPath : ℕ := 107

def socketDir (env : Text → Option Bytes) (name : Text) : Except InstallError Bytes := do
  return joinPath (← absoluteEnv env "XDG_RUNTIME_DIR".toList) (utf8 name)

def Service.socketPath (env : Text → Option Bytes) (service : Service) : Except InstallError Bytes := do
  return joinPath (← socketDir env service.name) (utf8 (service.label ++ ".sock".toList))

def unitDir (env : Text → Option Bytes) : Except InstallError Bytes := do
  let config ← match absoluteEnv env "XDG_CONFIG_HOME".toList with
    | .ok path => .ok path
    | .error _ => (absoluteEnv env "HOME".toList).map fun home => joinPath home (utf8 ".config".toList)
  return joinPath (joinPath config (utf8 "systemd".toList)) (utf8 "user".toList)

/-- A character of an `ExecStart` word. -/
def quoteChar (c : Char) : Text :=
  if c = '\\' ∨ c = '"' then ['\\', c]
  else if c = '%' then ['%', '%']
  else if c = '$' then ['$', '$']
  else [c]

/-- Quotes one `ExecStart` word. -/
def quote (word : Bytes) : Text :=
  '"' :: (fromUtf8Lossy word).flatMap quoteChar ++ ['"']

def execStart (program : Bytes) (args : List Bytes) : Text :=
  quote program ++ args.flatMap fun arg => ' ' :: quote arg

def unlines (lines : List Text) : Text :=
  lines.flatMap fun line => line ++ ['\n']

def socketUnit (label socket : Text) : Text :=
  unlines ["[Unit]".toList, "Description=".toList ++ label ++ " socket".toList, [], "[Socket]".toList,
    "ListenStream=".toList ++ socket, "SocketMode=0600".toList, "DirectoryMode=0700".toList, "Accept=no".toList,
    "TriggerLimitIntervalSec=2".toList, "TriggerLimitBurst=200".toList, [], "[Install]".toList,
    "WantedBy=sockets.target".toList]

def serviceUnit (label exec : Text) : Text :=
  unlines ["[Unit]".toList, "Description=".toList ++ label, "Requires=".toList ++ label ++ ".socket".toList,
    "StartLimitIntervalSec=10".toList, "StartLimitBurst=100".toList, [], "[Service]".toList,
    "ExecStart=".toList ++ exec, "StandardInput=socket".toList, "StandardOutput=journal".toList,
    "StandardError=journal".toList]

/-- The files that an installation writes, in order, if nothing else fails. -/
def install (env : Text → Option Bytes) (service : Service) (program : Bytes) (args : List Bytes) :
    Except InstallError (List (Bytes × Bytes)) := do
  let socket ← service.socketPath env
  if maxSocketPath < socket.length then
    .error (.socketPathTooLong socket maxSocketPath)
  else
    let exec := execStart program args
    let units ← unitDir env
    return [(joinPath units (utf8 (service.label ++ ".socket".toList)),
        utf8 (socketUnit service.label (fromUtf8Lossy socket))),
      (joinPath units (utf8 (service.label ++ ".service".toList)), utf8 (serviceUnit service.label exec))]

/-- The directives of the template, with the value of its `ExecStart`. -/
def templateDirectives (label : Text) (exec : Bytes) : List Directive :=
  let unit := utf8 "Unit".toList
  let service := utf8 "Service".toList
  [⟨unit, utf8 "Description".toList, utf8 label⟩, ⟨unit, utf8 "Requires".toList, utf8 (label ++ ".socket".toList)⟩,
    ⟨unit, utf8 "StartLimitIntervalSec".toList, utf8 "10".toList⟩, ⟨unit, utf8 "StartLimitBurst".toList, utf8 "100".toList⟩,
    ⟨service, utf8 "ExecStart".toList, exec⟩, ⟨service, utf8 "StandardInput".toList, utf8 "socket".toList⟩,
    ⟨service, utf8 "StandardOutput".toList, utf8 "journal".toList⟩,
    ⟨service, utf8 "StandardError".toList, utf8 "journal".toList⟩]

/-- The unit has the template's directives and no other, and its `ExecStart` runs what was asked. -/
def RunsExactly (label : Text) (unit program : Bytes) (args : List Bytes) : Prop :=
  ∃ exec, directives unit = templateDirectives label exec ∧ commandLine exec = some (program :: args)

/-- What a quoted character leaves in a word. -/
def marked (bytes : Bytes) : Bytes :=
  double (asciiByte '%') (double (asciiByte '$') bytes)

lemma marked_append (xs ys : Bytes) : marked (xs ++ ys) = marked xs ++ marked ys := by
  rw [marked, double_append, double_append]
  rfl

lemma marked_of_not_mem {bytes : Bytes} (hp : asciiByte '%' ∉ bytes) (hd : asciiByte '$' ∉ bytes) : marked bytes = bytes := by
  rw [marked, double_eq_self.mpr hd, double_eq_self.mpr hp]

/-- Bytes without a quote and a backslash are read as they are. -/
lemma foldlM_plain {bytes : Bytes} (hq : asciiByte '"' ∉ bytes) (hb : asciiByte '\\' ∉ bytes) (word : Bytes)
    (words : List Bytes) :
    bytes.foldlM Scan.step ⟨.quoted, word, words⟩ = some ⟨.quoted, word ++ bytes, words⟩ := by
  induction bytes generalizing word with
  | nil => rw [List.append_nil]; rfl
  | cons b bytes ih =>
    rw [List.mem_cons, not_or] at hq hb
    have hstep : Scan.step ⟨.quoted, word, words⟩ b = some ⟨.quoted, word ++ [b], words⟩ := by
      simp only [Scan.step, if_neg (Ne.symm hq.1), if_neg (Ne.symm hb.1), Scan.push]
    rw [List.foldlM_cons, hstep, Option.bind_eq_bind, Option.bind_some, ih hq.2 hb.2, List.append_assoc]
    rfl

lemma ascii_mem_utf8_singleton {c d : Char} (hd : d.toNat < 128) (hne : d ≠ c) : asciiByte d ∉ utf8 [c] := by
  rw [mem_utf8_ascii hd, List.mem_singleton]
  exact hne

/-- A quoted character reads back, with its marks doubled. -/
lemma foldlM_quoteChar (c : Char) (word : Bytes) (words : List Bytes) :
    (utf8 (quoteChar c)).foldlM Scan.step ⟨.quoted, word, words⟩ = some ⟨.quoted, word ++ marked (utf8 [c]), words⟩ := by
  unfold quoteChar
  split_ifs with h1 h2 h3
  · rcases h1 with rfl | rfl <;> rfl
  · rw [h2, show utf8 ['%', '%'] = marked (utf8 ['%']) by decide]
    exact foldlM_plain (by decide) (by decide) word words
  · rw [h3, show utf8 ['$', '$'] = marked (utf8 ['$']) by decide]
    exact foldlM_plain (by decide) (by decide) word words
  · rw [not_or] at h1
    rw [marked_of_not_mem (ascii_mem_utf8_singleton (by decide) (Ne.symm h2))
      (ascii_mem_utf8_singleton (by decide) (Ne.symm h3))]
    exact foldlM_plain (ascii_mem_utf8_singleton (by decide) (Ne.symm h1.2))
      (ascii_mem_utf8_singleton (by decide) (Ne.symm h1.1)) word words

lemma foldlM_quoteChars (text : Text) (word : Bytes) (words : List Bytes) :
    (utf8 (text.flatMap quoteChar)).foldlM Scan.step ⟨.quoted, word, words⟩ =
      some ⟨.quoted, word ++ marked (utf8 text), words⟩ := by
  induction text generalizing word with
  | nil => rw [utf8_nil, marked_of_not_mem (by simp) (by simp), List.append_nil]; rfl
  | cons c text ih =>
    have hcons : utf8 (c :: text) = utf8 [c] ++ utf8 text := utf8_append [c] text
    rw [List.flatMap_cons, utf8_append, List.foldlM_append, foldlM_quoteChar, Option.bind_eq_bind, Option.bind_some, ih,
      hcons, marked_append, List.append_assoc]

/-- From between words a quoted word is read to its closing quote. -/
lemma foldlM_quote (word : Bytes) (words : List Bytes) :
    (utf8 (quote word)).foldlM Scan.step ⟨.between, [], words⟩ =
      some ⟨.bare, marked (utf8 (fromUtf8Lossy word)), words⟩ := by
  have hquote : utf8 (quote word) =
      asciiByte '"' :: (utf8 ((fromUtf8Lossy word).flatMap quoteChar) ++ [asciiByte '"']) := by
    rw [quote, List.cons_append, utf8_ascii (by decide), utf8_append]
    rfl
  have hopen : Scan.step ⟨.between, [], words⟩ (asciiByte '"') = some ⟨.quoted, [], words⟩ := rfl
  rw [hquote, List.foldlM_cons, hopen, Option.bind_eq_bind, Option.bind_some, List.foldlM_append, foldlM_quoteChars]
  rfl

lemma foldlM_args (args : List Bytes) (word : Bytes) (words : List Bytes) :
    ((utf8 (args.flatMap fun arg => ' ' :: quote arg)).foldlM Scan.step ⟨.bare, word, words⟩).bind Scan.finish =
      some (words ++ word :: args.map fun arg => marked (utf8 (fromUtf8Lossy arg))) := by
  induction args generalizing word words with
  | nil => rfl
  | cons arg args ih =>
    have hspace : Scan.step ⟨.bare, word, words⟩ (asciiByte ' ') = some ⟨.between, [], words ++ [word]⟩ := rfl
    rw [List.flatMap_cons, utf8_append, utf8_ascii (by decide), List.cons_append, List.foldlM_cons, hspace,
      Option.bind_eq_bind, Option.bind_some, List.foldlM_append, foldlM_quote, Option.bind_eq_bind, Option.bind_some, ih,
      List.append_assoc]
    rfl

/-- The words of a command line are those that were quoted, where they are UTF-8; the marks of variables stay
double in the program. -/
theorem commandLine_execStart (program : Bytes) (args : List Bytes) :
    commandLine (utf8 (execStart program args)) =
      some (double (asciiByte '$') (utf8 (fromUtf8Lossy program)) :: args.map fun arg => utf8 (fromUtf8Lossy arg)) := by
  have hwords : splitWords (utf8 (execStart program args)) = some (marked (utf8 (fromUtf8Lossy program)) ::
      args.map fun arg => marked (utf8 (fromUtf8Lossy arg))) := by
    rw [splitWords, execStart, utf8_append, List.foldlM_append, foldlM_quote, Option.bind_eq_bind, Option.bind_some,
      foldlM_args]
    rfl
  have hargument : ∀ arg, argument (marked (utf8 (fromUtf8Lossy arg))) = some (utf8 (fromUtf8Lossy arg)) := by
    intro arg
    rw [argument, marked, undouble_double, Option.bind_some, undouble_double]
  have hprogram : undouble (asciiByte '%') (marked (utf8 (fromUtf8Lossy program))) =
      some (double (asciiByte '$') (utf8 (fromUtf8Lossy program))) := undouble_double _ _
  rw [commandLine, hwords]
  simp only [Option.bind_eq_bind, Option.bind_some, hprogram, mapM_map_some hargument]
  rfl

lemma newline_mem_quoteChars {text : Text} : '\n' ∈ text.flatMap quoteChar ↔ '\n' ∈ text := by
  have hchar : ∀ c, '\n' ∈ quoteChar c ↔ c = '\n' := by
    intro c
    unfold quoteChar
    split_ifs with h1 h2 h3
    · rcases h1 with rfl | rfl <;> decide
    · rw [h2]
      decide
    · rw [h3]
      decide
    · rw [List.mem_singleton, eq_comm]
  simp only [List.mem_flatMap, hchar, exists_eq_right]

lemma newline_mem_quote {word : Bytes} : '\n' ∈ quote word ↔ '\n' ∈ fromUtf8Lossy word := by
  rw [quote, List.cons_append, List.mem_cons, List.mem_append, newline_mem_quoteChars]
  simp

/-- A line break in a word ends the line in an open quote. -/
lemma quote_newline {word : Bytes} (h : '\n' ∈ fromUtf8Lossy word) : ∃ before after, quote word = before ++ '\n' :: after ∧
    '\n' ∉ before ∧ ∀ words, ∃ read, (utf8 before).foldlM Scan.step ⟨.between, [], words⟩ = some ⟨.quoted, read, words⟩ := by
  obtain ⟨pre, post, heq, hpre⟩ := List.eq_append_cons_of_mem h
  have hescape : '\n' ∉ pre.flatMap quoteChar := newline_mem_quoteChars.not.mpr hpre
  refine ⟨'"' :: pre.flatMap quoteChar, post.flatMap quoteChar ++ ['"'], ?_, by simp [hescape], fun words => ⟨[] ++ marked (utf8 pre), ?_⟩⟩
  · have hbreak : quoteChar '\n' = ['\n'] := by decide
    rw [quote, heq, List.flatMap_append, List.flatMap_cons, hbreak]
    simp
  · have hopen : Scan.step ⟨.between, [], words⟩ (asciiByte '"') = some ⟨.quoted, [], words⟩ := rfl
    rw [utf8_ascii (by decide), List.foldlM_cons, hopen, Option.bind_eq_bind, Option.bind_some, foldlM_quoteChars]

lemma args_newline {args : List Bytes} (h : ∃ arg ∈ args, '\n' ∈ fromUtf8Lossy arg) : ∃ before after,
    (args.flatMap fun arg => ' ' :: quote arg) = before ++ '\n' :: after ∧ '\n' ∉ before ∧
      ∀ word words, ∃ s : Scan, (utf8 before).foldlM Scan.step ⟨.bare, word, words⟩ = some s ∧ s.mode = .quoted := by
  induction args with
  | nil =>
    obtain ⟨arg, hmem, -⟩ := h
    cases hmem
  | cons arg args ih =>
    have hspace : ∀ word words, Scan.step ⟨.bare, word, words⟩ (asciiByte ' ') = some ⟨.between, [], words ++ [word]⟩ :=
      fun _ _ => rfl
    rw [List.flatMap_cons]
    by_cases hfirst : '\n' ∈ fromUtf8Lossy arg
    · obtain ⟨before, after, heq, hbefore, hread⟩ := quote_newline hfirst
      refine ⟨' ' :: before, after ++ args.flatMap fun arg => ' ' :: quote arg, by simp [heq], by simp [hbefore], ?_⟩
      intro word words
      obtain ⟨read, hread⟩ := hread (words ++ [word])
      refine ⟨⟨.quoted, read, words ++ [word]⟩, ?_, rfl⟩
      rw [utf8_ascii (by decide), List.foldlM_cons, hspace, Option.bind_eq_bind, Option.bind_some, hread]
    · have hrest : ∃ arg ∈ args, '\n' ∈ fromUtf8Lossy arg := by
        obtain ⟨other, hmem, hnew⟩ := h
        rcases List.mem_cons.mp hmem with rfl | hmem
        · exact absurd hnew hfirst
        · exact ⟨other, hmem, hnew⟩
      obtain ⟨before, after, heq, hbefore, hread⟩ := ih hrest
      refine ⟨' ' :: quote arg ++ before, after, by simp [heq], ?_, ?_⟩
      · have hquote := newline_mem_quote.not.mpr hfirst
        simp [hquote, hbefore]
      · intro word words
        obtain ⟨s, hs, hmode⟩ := hread (marked (utf8 (fromUtf8Lossy arg))) (words ++ [word])
        refine ⟨s, ?_, hmode⟩
        rw [utf8_append, utf8_ascii (by decide), List.cons_append, List.foldlM_cons, hspace, Option.bind_eq_bind,
          Option.bind_some, List.foldlM_append, foldlM_quote, Option.bind_eq_bind, Option.bind_some, hs]

/-- A line break in a command line leaves a line that is no command line. -/
theorem execStart_newline {program : Bytes} {args : List Bytes} (h : ∃ word ∈ program :: args, '\n' ∈ fromUtf8Lossy word) :
    ∃ before after, execStart program args = before ++ '\n' :: after ∧ '\n' ∉ before ∧ commandLine (utf8 before) = none := by
  have hnone : ∀ {before : Text} {s : Scan}, (utf8 before).foldlM Scan.step ⟨.between, [], []⟩ = some s → s.mode = .quoted →
      commandLine (utf8 before) = none := by
    intro before s hs hmode
    have hwords : splitWords (utf8 before) = none := by
      rw [splitWords, hs, Option.bind_some, Scan.finish, hmode]
    rw [commandLine, hwords]
    rfl
  rw [execStart]
  by_cases hfirst : '\n' ∈ fromUtf8Lossy program
  · obtain ⟨before, after, heq, hbefore, hread⟩ := quote_newline hfirst
    obtain ⟨read, hread⟩ := hread []
    refine ⟨before, after ++ args.flatMap fun arg => ' ' :: quote arg, ?_, hbefore, hnone hread rfl⟩
    rw [heq, List.append_assoc, List.cons_append]
  · have hrest : ∃ arg ∈ args, '\n' ∈ fromUtf8Lossy arg := by
      obtain ⟨word, hmem, hnew⟩ := h
      rcases List.mem_cons.mp hmem with rfl | hmem
      · exact absurd hnew hfirst
      · exact ⟨word, hmem, hnew⟩
    obtain ⟨before, after, heq, hbefore, hread⟩ := args_newline hrest
    obtain ⟨s, hs, hmode⟩ := hread (marked (utf8 (fromUtf8Lossy program))) []
    refine ⟨quote program ++ before, after, by rw [heq, List.append_assoc], ?_, hnone (s := s) ?_ hmode⟩
    · rw [List.mem_append, newline_mem_quote, not_or]
      exact ⟨hfirst, hbefore⟩
    · rw [utf8_append, List.foldlM_append, foldlM_quote, Option.bind_eq_bind, Option.bind_some, hs]

lemma newline_not_mem_execStart {program : Bytes} {args : List Bytes}
    (h : ∀ word ∈ program :: args, '\n' ∉ fromUtf8Lossy word) : '\n' ∉ execStart program args := by
  rw [execStart, List.mem_append, newline_mem_quote, not_or]
  refine ⟨h program List.mem_cons_self, fun hmem => ?_⟩
  obtain ⟨arg, harg, hmem⟩ := List.mem_flatMap.mp hmem
  rw [List.mem_cons, newline_mem_quote] at hmem
  exact h arg (List.mem_cons_of_mem _ harg) (hmem.resolve_left (by decide))

lemma unlines_cons (line : Text) (lines : List Text) : unlines (line :: lines) = line ++ '\n' :: unlines lines := by
  rw [unlines, List.flatMap_cons, List.append_assoc]
  rfl

lemma directivesIn_unit (group : Bytes) (lines : List Bytes) :
    directivesIn group (utf8 "[Unit]".toList :: lines) = directivesIn (utf8 "Unit".toList) lines := by
  rw [directivesIn, if_pos (by decide), show (utf8 "[Unit]".toList).tail.takeWhile (· ≠ asciiByte ']') = utf8 "Unit".toList by
    decide]

lemma directivesIn_service (group : Bytes) (lines : List Bytes) :
    directivesIn group (utf8 "[Service]".toList :: lines) = directivesIn (utf8 "Service".toList) lines := by
  rw [directivesIn, if_pos (by decide),
    show (utf8 "[Service]".toList).tail.takeWhile (· ≠ asciiByte ']') = utf8 "Service".toList by decide]

lemma directivesIn_empty (group : Bytes) (lines : List Bytes) :
    directivesIn group (utf8 [] :: lines) = directivesIn group lines := by
  rw [directivesIn, if_neg (by decide), if_pos (by decide)]

/-- The directives behind `ExecStart`. -/
def lastLines : List Text :=
  ["StandardInput=socket".toList, "StandardOutput=journal".toList, "StandardError=journal".toList]

lemma directives_lastLines (label : Text) (exec : Bytes) :
    directivesIn (utf8 "Service".toList) ((utf8 (unlines lastLines)).splitOn (asciiByte '\n')) =
      (templateDirectives label exec).drop 5 := by
  have hlines : unlines lastLines = "StandardInput".toList ++ '=' :: "socket".toList ++ '\n' :: ("StandardOutput".toList ++
      '=' :: "journal".toList ++ '\n' :: ("StandardError".toList ++ '=' :: "journal".toList ++ ['\n'])) := by
    decide
  rw [hlines, splitOn_line _ (by decide), splitOn_line _ (by decide), splitOn_line _ (by decide),
    directivesIn_setting _ (by decide), directivesIn_setting _ (by decide), directivesIn_setting _ (by decide)]
  rfl

/-- What is read in the service unit: the value of `ExecStart` ends with its line. -/
lemma directives_serviceUnit {label exec line rest : Text} (hlabel : '\n' ∉ label) (hline : '\n' ∉ line)
    (hexec : exec ++ '\n' :: unlines lastLines = line ++ '\n' :: rest) :
    directives (utf8 (serviceUnit label exec)) = (templateDirectives label (utf8 line)).take 5 ++
      directivesIn (utf8 "Service".toList) ((utf8 rest).splitOn (asciiByte '\n')) := by
  have hunit : serviceUnit label exec = "[Unit]".toList ++ '\n' :: ("Description".toList ++ '=' :: label ++ '\n' ::
      ("Requires".toList ++ '=' :: (label ++ ".socket".toList) ++ '\n' :: ("StartLimitIntervalSec".toList ++ '=' ::
        "10".toList ++ '\n' :: ("StartLimitBurst".toList ++ '=' :: "100".toList ++ '\n' :: ([] ++ '\n' ::
          ("[Service]".toList ++ '\n' :: ("ExecStart".toList ++ '=' :: line ++ '\n' :: rest))))))) := by
    have hlast : "ExecStart".toList ++ '=' :: line ++ '\n' :: rest = "ExecStart=".toList ++ exec ++ '\n' :: unlines lastLines := by
      rw [List.append_assoc, List.append_assoc, hexec]
      rfl
    rw [hlast]
    simp only [serviceUnit, lastLines, unlines_cons]
    rfl
  rw [hunit, directives, splitOn_line _ (by decide), splitOn_line _ (by simp [hlabel]), splitOn_line _ (by simp [hlabel]),
    splitOn_line _ (by decide), splitOn_line _ (by decide), splitOn_line _ (by decide), splitOn_line _ (by decide),
    splitOn_line _ (by simp [hline]), directivesIn_unit, directivesIn_setting _ (by decide), directivesIn_setting _ (by decide),
    directivesIn_setting _ (by decide), directivesIn_setting _ (by decide), directivesIn_empty, directivesIn_service,
    directivesIn_setting _ (by decide)]
  rfl

/-- The command line that is read, where it is one: the lossy texts of the words. -/
lemma commandLine_serviceUnit {label : Text} {program : Bytes} {args : List Bytes} (hlabel : '\n' ∉ label) {exec : Bytes}
    (h : directives (utf8 (serviceUnit label (execStart program args))) = templateDirectives label exec)
    {words : List Bytes} (hwords : commandLine exec = some words) :
    (∀ word ∈ program :: args, '\n' ∉ fromUtf8Lossy word) ∧
      words = double (asciiByte '$') (utf8 (fromUtf8Lossy program)) :: args.map fun arg => utf8 (fromUtf8Lossy arg) := by
  have hvalue : ∀ {line rest : Text}, '\n' ∉ line →
      execStart program args ++ '\n' :: unlines lastLines = line ++ '\n' :: rest → exec = utf8 line := by
    intro line rest hline hexec
    have hread := (directives_serviceUnit hlabel hline hexec).symm.trans h
    have hget := congrArg (fun ds : List Directive => ds[4]?.map Directive.value) hread
    exact (Option.some_inj.mp hget).symm
  have hall : ∀ word ∈ program :: args, '\n' ∉ fromUtf8Lossy word := by
    by_contra hsome
    push Not at hsome
    obtain ⟨before, after, heq, hbefore, hnone⟩ := execStart_newline hsome
    have hexec : exec = utf8 before := by
      apply @hvalue before (after ++ '\n' :: unlines lastLines) hbefore
      rw [heq, List.append_assoc, List.cons_append]
    rw [hexec, hnone] at hwords
    cases hwords
  refine ⟨hall, ?_⟩
  have hexec := hvalue (newline_not_mem_execStart hall) rfl
  rw [hexec, commandLine_execStart] at hwords
  exact (Option.some_inj.mp hwords).symm

/-- The unit runs what was asked exactly when every word is UTF-8 on one line and the program has no `$`. -/
theorem runsExactly_iff {label : Text} {program : Bytes} {args : List Bytes} (hlabel : '\n' ∉ label) :
    RunsExactly label (utf8 (serviceUnit label (execStart program args))) program args ↔
      (∀ word ∈ program :: args, ∃ text, word = utf8 text ∧ '\n' ∉ text) ∧ asciiByte '$' ∉ program := by
  constructor
  · rintro ⟨exec, hread, hwords⟩
    obtain ⟨hall, heq⟩ := commandLine_serviceUnit hlabel hread hwords
    obtain ⟨hprogram, hargs⟩ := List.cons.inj heq
    have hsame : utf8 (fromUtf8Lossy program) = program := by
      rw [double_utf8 (by decide)] at hprogram
      rw [hprogram, fromUtf8Lossy_utf8]
    refine ⟨?_, ?_⟩
    · intro word hword
      refine ⟨fromUtf8Lossy word, ?_, hall word hword⟩
      rcases List.mem_cons.mp hword with rfl | hword
      · exact hsame.symm
      · have hid := hargs.symm.trans (List.map_id' args).symm
        exact (List.map_inj_left.mp hid word hword).symm
    · rw [hsame] at hprogram
      exact double_eq_self.mp hprogram.symm
  · rintro ⟨hall, hdollar⟩
    have hlossy : ∀ word ∈ program :: args, utf8 (fromUtf8Lossy word) = word ∧ '\n' ∉ fromUtf8Lossy word := by
      intro word hword
      obtain ⟨text, rfl, htext⟩ := hall word hword
      rw [fromUtf8Lossy_utf8]
      exact ⟨rfl, htext⟩
    refine ⟨utf8 (execStart program args), ?_, ?_⟩
    · have hline := newline_not_mem_execStart fun word hword => (hlossy word hword).2
      rw [directives_serviceUnit hlabel hline rfl, directives_lastLines label (utf8 (execStart program args)),
        List.take_append_drop]
    · have hargs : (args.map fun arg => utf8 (fromUtf8Lossy arg)) = args := by
        rw [List.map_congr_left fun arg harg => (hlossy arg (List.mem_cons_of_mem _ harg)).1, List.map_id']
      rw [commandLine_execStart, (hlossy program List.mem_cons_self).1, double_eq_self.mpr hdollar, hargs]

lemma newline_not_mem_label {service : Service} (h : '\n' ∉ service.name) : '\n' ∉ service.label := by
  have hdigits : '\n' ∉ decimal service.major.toNat := by
    intro hmem
    have hdigit := Nat.isDigit_of_mem_toDigits (by decide) (by decide) hmem
    revert hdigit
    decide
  rw [Service.label, List.mem_append, List.mem_append]
  simp [h, hdigits]

/-- The service unit that `install` writes is the last file. -/
lemma install_ok {env : Text → Option Bytes} {service : Service} {program : Bytes} {args : List Bytes}
    {files : List (Bytes × Bytes)} (h : install env service program args = .ok files) :
    ∃ directory socket, files = [(joinPath directory (utf8 (service.label ++ ".socket".toList)), socket),
      (joinPath directory (utf8 (service.label ++ ".service".toList)),
        utf8 (serviceUnit service.label (execStart program args)))] := by
  unfold install at h
  cases hsocket : service.socketPath env with
  | error e =>
    rw [hsocket] at h
    cases h
  | ok socket =>
    cases hunits : unitDir env with
    | error e =>
      rw [hsocket, hunits] at h
      change (if _ then _ else _) = _ at h
      split_ifs at h
      cases h
    | ok units =>
      rw [hsocket, hunits] at h
      change (if _ then _ else _) = _ at h
      split_ifs at h
      exact ⟨units, utf8 (socketUnit service.label (fromUtf8Lossy socket)), (Except.ok.inj h).symm⟩

end Unixd
