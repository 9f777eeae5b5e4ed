/-
  CssLexer.Proofs.Command.Strictness — the command with and without `--strict`.

  Giving `--strict` besides other arguments changes nothing else that they ask for. The strict run of the command shows
  what a strict scan gives: the tokens of the lenient scan, or nothing of them at all.

  Proved:
  - `Given.indifferent_readAll`: arguments that do not ask for strictness are read alike where it was asked for before;
    `ofArguments_strict`: so with `--strict` in front they ask for the same, strictly.
  - `ofArguments_inline`: there is no text, view or colour that arguments cannot ask for.
  - `scanText_strict_of_wellFormed`, `scanText_strict_of_malformed`: the report of a strict run.
  - `strict_run`: both runs side by side.
-/

import CssLexer.Command
import CssLexer.Proofs.Warnings

namespace CssLexer.Command

/-! ## Asking for strictness -/

/-- The argument that gives a flag by its long name. -/
def Flag.argument (f : Flag) : Text := "--" ++ f.name

namespace Given

def strictly (g : Given) : Given := { g with strict := true }

/-- A step of the reading of arguments that does the same whether strictness was asked for before or not, unless it
asks for it itself; and it reaches no scan, which only the end of the arguments does. -/
structure Indifferent (f : Given → Except Stop Given) : Prop where
  strictly : ∀ {g g' : Given}, f g = .ok g' → g'.strict = false → g.strict = false ∧ f g.strictly = .ok g'.strictly
  reaches : ∀ {g : Given} {r : Request}, f g = .error (.reached r) → ∀ o, r ≠ .scan o

theorem Indifferent.ok : Indifferent .ok where
  strictly h hstrict := by
    cases h
    exact ⟨hstrict, rfl⟩
  reaches := nofun

theorem Indifferent.refused (e : UsageError) : Indifferent fun _ => .error (.refused e) := ⟨nofun, nofun⟩

theorem Indifferent.bind {f k : Given → Except Stop Given} (hf : Indifferent f) (hk : Indifferent k) :
    Indifferent fun g => (f g).bind k where
  strictly {g g'} h hstrict := by
    cases hfirst : f g with
    | error stop =>
      simp only [hfirst] at h
      cases h
    | ok middle =>
      simp only [hfirst] at h
      obtain ⟨hmiddle, hsecond⟩ := hk.strictly h hstrict
      obtain ⟨hg, hfirst'⟩ := hf.strictly hfirst hmiddle
      refine ⟨hg, ?_⟩
      simp only [hfirst']
      exact hsecond
  reaches {g r} h := by
    cases hfirst : f g with
    | error stop =>
      simp only [hfirst] at h
      cases h
      exact hf.reaches hfirst
    | ok middle =>
      simp only [hfirst] at h
      exact hk.reaches h

theorem Indifferent.foldlM {α : Type} {f : Given → α → Except Stop Given} (hf : ∀ a, Indifferent fun g => f g a)
    (as : List α) : Indifferent fun g => as.foldlM f g := by
  induction as with
  | nil => exact .ok
  | cons a as ih => exact (hf a).bind ih

theorem indifferent_giveFile (path : Text) : Indifferent fun g => g.giveFile path := by
  simp only [giveFile]
  split
  · exact .refused _
  · refine ⟨?_, ?_⟩
    · intro g g' h hstrict
      split at h
      · cases h
      · rename_i hfile
        cases h
        exact ⟨hstrict, if_neg hfile⟩
    · intro g r h
      split at h <;> cases h

theorem indifferent_giveCss (css : Text) : Indifferent fun g => g.giveCss css := by
  simp only [giveCss]
  refine ⟨?_, ?_⟩
  · intro g g' h hstrict
    split at h
    · cases h
    · rename_i hcss
      cases h
      exact ⟨hstrict, if_neg hcss⟩
  · intro g r h
    split at h <;> cases h

theorem indifferent_giveFlag (f : Flag) : Indifferent fun g => g.giveFlag f := by
  refine ⟨?_, ?_⟩
  · intro g g' h hstrict
    obtain ⟨file, css, json, summary, strict, noColor⟩ := g
    cases f with
    | help | version => cases h
    | strict =>
      -- behind the flag itself strictness is asked for
      cases strict <;> cases h
      cases hstrict
    | json => cases json <;> cases h; exact ⟨hstrict, rfl⟩
    | summary => cases summary <;> cases h; exact ⟨hstrict, rfl⟩
    | noColor => cases noColor <;> cases h; exact ⟨hstrict, rfl⟩
  · intro g r h
    obtain ⟨file, css, json, summary, strict, noColor⟩ := g
    cases f with
    | help | version => cases h; nofun
    | strict => cases strict <;> cases h
    | json => cases json <;> cases h
    | summary => cases summary <;> cases h
    | noColor => cases noColor <;> cases h

theorem indifferent_giveLetter (c : Char) : Indifferent fun g => g.giveLetter c := by
  simp only [giveLetter]
  split
  · exact indifferent_giveFlag _
  · exact .refused _

theorem indifferent_giveName (name : Text) (value : Option Text) : Indifferent fun g => g.giveName name value := by
  simp only [giveName]
  split
  · exact .refused _
  · exact indifferent_giveFlag _
  · exact .refused _

/-- The reading of all arguments is such a step, being made of such steps. -/
theorem indifferent_readAll (arguments : List Text) : Indifferent fun g => readAll arguments g := by
  induction hn : arguments.length using Nat.strongRecOn generalizing arguments with
  | _ n ih =>
    cases arguments with
    | nil => exact .ok
    | cons argument rest =>
      rw [List.length_cons] at hn
      have hrest : Indifferent (readAll rest) := ih rest.length (by omega) rest rfl
      unfold readAll
      cases Word.ofArgument argument with
      | separator => exact .foldlM indifferent_giveFile rest
      | letters cs => exact (Indifferent.foldlM indifferent_giveLetter cs).bind hrest
      | plain s => exact (indifferent_giveFile s).bind hrest
      | long name value =>
        by_cases hname : name = "css"
        · simp only [hname, ne_eq, not_true_eq_false, if_false]
          cases value with
          | some css => exact (indifferent_giveCss css).bind hrest
          | none =>
            cases rest with
            | nil => exact .refused _
            | cons next others =>
              rw [List.length_cons] at hn
              have hothers : Indifferent (readAll others) := ih others.length (by omega) others rfl
              simp only []
              cases Word.ofArgument next with
              | plain css => exact (indifferent_giveCss css).bind hothers
              | separator | letters _ | long _ _ => exact .refused _
        · simp only [ne_eq, hname, not_false_eq_true, if_true]
          exact (indifferent_giveName name value).bind hrest

theorem readAll_flag (f : Flag) (arguments : List Text) (g : Given) :
    readAll (f.argument :: arguments) g = (g.giveFlag f).bind (readAll arguments) := by
  have hword : Word.ofArgument f.argument = .long f.name .none := by cases f <;> decide
  have hcss : f.name ≠ "css" := by cases f <;> decide
  have hname : Flag.ofName? f.name = some f := by cases f <;> decide
  rw [readAll.eq_def]
  simp only [hword]
  rw [if_pos hcss, giveName.eq_def, hname]

theorem readAll_css (css : Text) (arguments : List Text) (g : Given) :
    readAll (("--css=" ++ css) :: arguments) g = (g.giveCss css).bind (readAll arguments) := by
  have hword : Word.ofArgument ("--css=" ++ css) = .long "css" (some css) := rfl
  rw [readAll.eq_def]
  simp only [hword]
  exact if_neg (by decide)

theorem request_strictly {g : Given} {o : Options} (h : g.request = .ok (.scan o)) :
    o.strict = g.strict ∧ g.strictly.request = .ok (.scan { o with strict := true }) := by
  simp only [request] at h
  split at h
  · cases h
  · rename_i hview
    split at h
    · cases h
    · rename_i hsource
      cases h
      refine ⟨rfl, ?_⟩
      simp only [request]
      exact (if_neg hview).trans (if_neg hsource)

end Given

/-- Arguments that ask for a lenient run ask for the same run, but strict, with `--strict` in front of them. -/
theorem ofArguments_strict {arguments : List Text} {o : Options}
    (h : Request.ofArguments arguments = .ok (.scan o)) (hlenient : o.strict = false) :
    Request.ofArguments ("--strict" :: arguments) = .ok (.scan { o with strict := true }) := by
  have hflag : ("--strict" : Text) = Flag.strict.argument := by decide
  unfold Request.ofArguments at h ⊢
  rw [hflag, Given.readAll_flag]
  have hstrictly : (Given.none.giveFlag .strict).bind (Given.readAll arguments) =
      Given.readAll arguments Given.none.strictly := by rfl
  rw [hstrictly]
  have hindifferent := Given.indifferent_readAll arguments
  cases hread : Given.readAll arguments .none with
  | error stop =>
    rw [hread] at h
    cases stop with
    | refused e => cases h
    | reached r =>
      cases h
      exact absurd rfl (hindifferent.reaches hread o)
  | ok g =>
    rw [hread] at h
    obtain ⟨hstrict, hrequest⟩ := Given.request_strictly h
    obtain ⟨-, hread'⟩ := hindifferent.strictly hread (hstrict ▸ hlenient)
    rw [hread']
    exact hrequest

def View.flags (color : Bool) (v : View) : List Flag :=
  (match v with
    | listing => []
    | summary => [.summary]
    | json => [.json]) ++ if color then [] else [.noColor]

/-- Every text can be given as an argument, in every view and with or without colour. -/
theorem ofArguments_inline (v : View) (color : Bool) (css : Text) :
    Request.ofArguments ((v.flags color).map Flag.argument ++ [("--css=" ++ css : Text)]) =
      .ok (.scan ⟨.inline css, v, false, color⟩) := by
  have hread : Given.readAll ((v.flags color).map Flag.argument ++ [("--css=" ++ css : Text)]) .none =
      .ok ⟨.none, some css, v == .json, v == .summary, false, !color⟩ := by
    cases v <;> cases color <;>
      simp only [View.flags, List.nil_append, List.cons_append, List.map_cons, List.map_nil, if_true,
        Bool.false_eq_true, if_false, Given.readAll_flag, Given.readAll_css, Given.giveFlag, Given.giveCss, Given.none,
        Except.bind, Option.isSome_none, Given.readAll] <;> rfl
  rw [Request.ofArguments, hread]
  cases v <;> cases color <;> rfl

/-! ## The report on a text -/

section

variable {o : Options} (colorWarnings : Bool) {s : Text}

theorem scanText_lenient (hlenient : o.strict = false) :
    scanText o colorWarnings s =
      ⟨0, o.view.render o.color (tokenize s),
        (Scan.ofText s).rest.printed.flatMap (warningLine (colorWarnings && o.color))⟩ := by
  simp only [scanText, hlenient]
  rw [if_neg Bool.false_ne_true, Scan.rest_ofText]

theorem printed_of_wellFormed (h : WellFormed (tokenize s)) :
    (Scan.ofText s).rest.printed = [] ∧ (Scan.ofText s).strict.printed = [] := by
  refine ⟨?_, ?_⟩
  · rw [(rest_printed_eq s).1, messages_eq_nil_iff.mpr h]
    rfl
  · have hprinted : (Scan.ofText s).strict.printed = _ := Scan.readUntilBehind_printed [] [] (Scan.ofText s)
    rw [hprinted, ← tokenize_eq, find?_isMalformed_eq_none_iff.mpr h]
    rfl

theorem scanText_strict_of_wellFormed (h : WellFormed (tokenize s)) (hstrict : o.strict = true) :
    scanText o colorWarnings s = ⟨0, o.view.render o.color (tokenize s), []⟩ := by
  have hresult := (Scan.ofText s).strict_result
  rw [← tokenize_eq, find?_isMalformed_eq_none_iff.mpr h, takeWhile_of_wellFormed h] at hresult
  simp only [scanText, hstrict, if_true]
  rw [hresult, (printed_of_wellFormed h).2]
  rfl

theorem scanText_strict_of_malformed (h : ¬ WellFormed (tokenize s)) (hstrict : o.strict = true) :
    ∃ before t behind malformation, ∃ message : Text,
      tokenize s = before ++ t :: behind ∧ WellFormed before ∧ t.Reports malformation message ∧
      scanText o colorWarnings s =
        ⟨1, [], warningLine (colorWarnings && o.color) ("[lemur CSS] ⚠ " ++ message) ++
          errorText "Malformed CSS" (Fault.message ⟨malformation, t.value, t.line, t.column⟩)⟩ := by
  obtain ⟨before, t, behind, hsplit, hbefore, ht, hfind, -⟩ := exists_first_malformed h
  have hmem : t ∈ tokenize s := by
    rw [hsplit]
    exact List.mem_append_right _ List.mem_cons_self
  obtain ⟨m, message, hreports⟩ :=
    (Reader.entries_reads (Reader.ofText s)).exists_reports t hmem (Token.isMalformed_iff.mp ht)
  have hresult := (Scan.ofText s).strict_result
  rw [← tokenize_eq, hfind, Option.bind_eq_bind, Option.bind_some, hreports.fault?] at hresult
  have hprinted : (Scan.ofText s).strict.printed = _ := Scan.readUntilBehind_printed [] [] (Scan.ofText s)
  rw [← tokenize_eq, hfind, Option.elim_some, Scan.report_ofText s hreports.warning?, List.nil_append] at hprinted
  refine ⟨before, t, behind, m, message, hsplit, hbefore, hreports, ?_⟩
  simp only [scanText, hstrict, if_true]
  rw [hresult, hprinted, List.flatMap_singleton]

end

/-! ## The command -/

/-- What the arguments ask for is a scan of the text `s`, which can be read. -/
structure Scans (read : Source → Id (Except ReadFailure Text)) (arguments : List Text) (o : Options) (s : Text) :
    Prop where
  asked : Request.ofArguments arguments = .ok (.scan o)
  source : read o.source = .ok s

theorem Scans.run_eq {read : Source → Id (Except ReadFailure Text)} {arguments : List Text} {o : Options} {s : Text}
    (h : Scans read arguments o s) (colorWarnings : Bool) :
    run read colorWarnings arguments = scanText o colorWarnings s := by
  have hread : read o.source = pure (Except.ok s) := h.source
  simp only [run, h.asked, hread, pure_bind]
  rfl

/-- The command on a text that can be read, in any view and with or without colour. Without `--strict` it exits with 0,
shows the tokens and prints the warning lines of the scan. With it, which `--strict` in front of the arguments is one
way of asking for, it exits with 0 exactly if no token is malformed: then it shows the same, and neither run prints a
warning. Otherwise it exits with 1 and shows nothing; it prints the one warning of the first malformed token and the
error that tells its kind, value, line and column. -/
theorem strict_run (read : Source → Id (Except ReadFailure Text)) (colorWarnings : Bool) {arguments : List Text}
    {o : Options} {s : Text} (h : Scans read arguments o s) (hlenient : o.strict = false) :
    let lenient : Report := run read colorWarnings arguments
    lenient.exit = 0 ∧ lenient.stdout = o.view.render o.color (tokenize s) ∧
    lenient.stderr = (Scan.ofText s).rest.printed.flatMap (warningLine (colorWarnings && o.color)) ∧
    Request.ofArguments ("--strict" :: arguments) = .ok (.scan { o with strict := true }) ∧
    ∀ strictArguments, Request.ofArguments strictArguments = .ok (.scan { o with strict := true }) →
      let strict : Report := run read colorWarnings strictArguments
      (strict.exit = 0 ↔ WellFormed (tokenize s)) ∧
      (WellFormed (tokenize s) → strict.stdout = lenient.stdout ∧ strict.stderr = [] ∧ lenient.stderr = []) ∧
      (¬ WellFormed (tokenize s) → ∃ before t behind malformation, ∃ message : Text,
        tokenize s = before ++ t :: behind ∧ WellFormed before ∧ t.Reports malformation message ∧
        strict.exit = 1 ∧ strict.stdout = [] ∧
        strict.stderr = warningLine (colorWarnings && o.color) ("[lemur CSS] ⚠ " ++ message) ++
          errorText "Malformed CSS" (malformation.description ++ " " ++ quoted t.value ++ " at line " ++
            decimal t.line ++ ", column " ++ decimal t.column)) := by
  intro lenient
  have hreport : lenient = _ := (h.run_eq colorWarnings).trans (scanText_lenient colorWarnings hlenient)
  rw [hreport]
  refine ⟨rfl, rfl, rfl, ofArguments_strict h.asked hlenient, ?_⟩
  intro strictArguments hasked strict
  have hscans : Scans read strictArguments { o with strict := true } s := ⟨hasked, h.source⟩
  have hstrict : strict = _ := hscans.run_eq colorWarnings
  by_cases hwell : WellFormed (tokenize s)
  · rw [hstrict, scanText_strict_of_wellFormed colorWarnings hwell rfl, (printed_of_wellFormed hwell).1]
    exact ⟨iff_of_true rfl hwell, fun _ => ⟨rfl, rfl, rfl⟩, fun hbad => absurd hwell hbad⟩
  · obtain ⟨before, t, behind, m, message, hsplit, hbefore, hreports, hrefused⟩ :=
      scanText_strict_of_malformed (o := { o with strict := true }) colorWarnings hwell rfl
    rw [hstrict, hrefused]
    refine ⟨iff_of_false Nat.one_ne_zero hwell, fun hgood => absurd hgood hwell, fun _ =>
      ⟨before, t, behind, m, message, hsplit, hbefore, hreports, rfl, rfl, rfl⟩⟩

/-- A string that the end of the text cuts off on the second line. -/
theorem strict_run_unterminated :
    let read : Source → Id (Except ReadFailure Text) := fun
      | .inline css => .ok css
      | _ => .error .notFound
    let arguments : List Text := ["--css", "a\n 'b", "-s"]
    let lenient : Report := run read false arguments
    let strict : Report := run read false ("--strict" :: arguments)
    Scans read arguments ⟨.inline "a\n 'b", .summary, false, true⟩ "a\n 'b" ∧
    lenient.exit = 0 ∧ lenient.stderr = "[lemur CSS] ⚠ unterminated string\n" ∧
    strict.exit = 1 ∧ strict.stdout = [] ∧
    strict.stderr = "[lemur CSS] ⚠ unterminated string\nError: Malformed CSS\n\nCaused by:\n    " ++
      "unterminated string \"'b\" at line 2, column 2\n" := by
  intro read arguments lenient strict
  have hscans : Scans read arguments ⟨.inline "a\n 'b", .summary, false, true⟩ "a\n 'b" :=
    ⟨by decide +kernel, rfl⟩
  have hmalformed : ¬ WellFormed (tokenize "a\n 'b") := by
    rw [wellFormed_iff]
    decide +kernel
  obtain ⟨hexit, -, -, hasked, hstrict⟩ := strict_run read false hscans rfl
  obtain ⟨-, -, hrefused⟩ := hstrict ("--strict" :: arguments) hasked
  obtain ⟨-, -, -, -, -, -, -, -, hexit', hstdout, -⟩ := hrefused hmalformed
  exact ⟨hscans, hexit, by decide +kernel, hexit', hstdout, by decide +kernel⟩

end CssLexer.Command
