/-
  CssLexer.Proofs.Command.Recovery — the tokens read back from what the command shows.

  A listing and the JSON array are made of formats, field by field, and neither depends on the text but through its
  tokens. In a listing no value ends a line, so its lines are its tokens, and each can be read on its own. The summary
  tells only how many tokens there are of each kind.

  Proved:
  - `listingLine_eq`, `jsonFormat_print`: what the command writes is what these formats write.
  - `splitOn_listing`: the lines of a listing are its heading and one line for each token.
  - `recover?_render`: the tokens shown as a listing or as JSON are read back.
  - `dump_recovers`: so what the command shows tells the text.
-/

import CssLexer.Proofs.Command.Strictness
import CssLexer.Proofs.Text.Format

namespace CssLexer.Command

theorem print_numeral_left (left : Nat) (mark : Char) (hmark : isDigit mark = false) (n : Nat) :
    (Format.numeral left 0 mark hmark).print n = (decimal n).leftpad left ' ' ++ [mark] := by
  show _ ++ (List.replicate (0 - (decimal n).length) ' ' ++ [mark]) = _
  rw [Nat.zero_sub]
  rfl

theorem print_numeral_right (right : Nat) (mark : Char) (hmark : isDigit mark = false) (n : Nat) :
    (Format.numeral 0 right mark hmark).print n = (decimal n).rightpad right ' ' ++ [mark] := by
  show List.replicate (0 - (decimal n).length) ' ' ++ decimal n ++ _ = _
  rw [Nat.zero_sub, List.replicate_zero, List.nil_append, ← List.append_assoc]
  rfl

theorem print_numeral (mark : Char) (hmark : isDigit mark = false) (n : Nat) :
    (Format.numeral 0 0 mark hmark).print n = decimal n ++ [mark] := by
  rw [print_numeral_left, List.leftpad, Nat.zero_sub]
  rfl

/-! ## Lines of a listing -/

def kindWord (color : Bool) (k : Kind) : Text :=
  paint color (if k.isMalformed then .boldRed else .cyan) (kindCell k.label)

theorem kindWord_apart (color : Bool) :
    ∀ k ∈ Kind.all, ∀ k' ∈ Kind.all, kindWord color k <+: kindWord color k' → k = k' := by
  cases color <;> decide +kernel

def kindFormat (color : Bool) : Format Kind := .table Kind.all (kindWord color) Kind.mem_all (kindWord_apart color)

/-- What stands behind the column of a token: the first character of it, which ends the number. -/
def columnMark (color : Bool) : Char := if color then '\x1b' else ' '

theorem isDigit_columnMark (color : Bool) : isDigit (columnMark color) = false := by cases color <;> rfl

def lineFormat (color : Bool) : Format Token :=
  let place := (Format.numeral 4 0 ':' rfl).pair (Format.numeral 0 4 (columnMark color) (isDigit_columnMark color))
  let kind := ((kindFormat color).behind (if color then "[0m " else [])).before " "
  ((place.pair (kind.pair quotedFormat)).behind (if color then "\x1b[2m" else [])).convert
    (fun t => ((t.line, t.column), t.kind, t.value)) (fun f => ⟨f.2.1, f.2.2, f.1.1, f.1.2⟩) fun _ => rfl

theorem lineFormat_print (color : Bool) (t : Token) :
    (lineFormat color).print t =
      paint color .dim (placeCell t) ++ " " ++ kindWord color t.kind ++ " " ++ quoted t.value := by
  have hline := print_numeral_left 4 ':' rfl t.line
  have hcolumn := print_numeral_right 4 (columnMark color) (isDigit_columnMark color) t.column
  rw [placeCell]
  simp only [lineFormat, Format.convert, Format.behind, Format.before, Format.pair, hline, hcolumn, quotedFormat_print]
  cases color with
  | false =>
    simp only [paint, Bool.false_eq_true, if_false, List.append_assoc, List.nil_append]
    rfl
  | true =>
    simp only [paint, if_true, List.append_assoc]
    rfl

theorem listingLine_eq (color : Bool) (t : Token) : listingLine color t = (lineFormat color).print t ++ ['\n'] := by
  rw [lineFormat_print]
  rfl

theorem newline_notMem_placeCell (t : Token) : '\n' ∉ placeCell t := by
  have hspaces (k : Nat) : '\n' ∉ List.replicate k ' ' := fun h => absurd (List.eq_of_mem_replicate h) (by decide)
  rw [placeCell, List.mem_append, List.mem_append, List.leftpad, List.rightpad, List.mem_append, List.mem_append]
  rintro (((h | h) | h) | (h | h))
  · exact hspaces _ h
  · exact newline_notMem_decimal t.line h
  · exact absurd h (by decide)
  · exact newline_notMem_decimal t.column h
  · exact hspaces _ h

theorem newline_notMem_paint (color : Bool) {style : Style} {s : Text} (h : '\n' ∉ s) : '\n' ∉ paint color style s := by
  cases color with
  | false => exact h
  | true =>
    have hopening : '\n' ∉ style.opening := by cases style <;> decide
    have hclosing : '\n' ∉ style.closing := by cases style <;> decide
    rw [paint, if_pos rfl, List.mem_append, List.mem_append]
    rintro ((h' | h') | h')
    · exact hopening h'
    · exact h h'
    · exact hclosing h'

theorem newline_notMem_lineFormat (color : Bool) (t : Token) : '\n' ∉ (lineFormat color).print t := by
  have hplace : '\n' ∉ paint color .dim (placeCell t) := newline_notMem_paint color (newline_notMem_placeCell t)
  have hlabels : ∀ k ∈ Kind.all, '\n' ∉ kindCell k.label := by decide +kernel
  have hkind : '\n' ∉ kindWord color t.kind := newline_notMem_paint color (hlabels t.kind (Kind.mem_all _))
  have hblank : '\n' ∉ (" " : Text) := by decide
  rw [lineFormat_print, List.mem_append, List.mem_append, List.mem_append, List.mem_append]
  rintro ((((h | h) | h) | h) | h)
  · exact hplace h
  · exact hblank h
  · exact hkind h
  · exact hblank h
  · exact newline_notMem_quoted t.value h

/-! ## The listing -/

def heading (n : Nat) : Text := "=== Tokens (" ++ decimal n ++ ") ==="

theorem newline_notMem_heading (n : Nat) : '\n' ∉ heading n := by
  have hopening : '\n' ∉ ("=== Tokens (" : Text) := by decide +kernel
  have hclosing : '\n' ∉ (") ===" : Text) := by decide +kernel
  unfold heading
  rw [List.mem_append, List.mem_append]
  rintro ((h | h) | h)
  · exact hopening h
  · exact newline_notMem_decimal n h
  · exact hclosing h

theorem splitOn_line {line : Text} (h : '\n' ∉ line) (rest : Text) :
    (line ++ '\n' :: rest).splitOn '\n' = line :: rest.splitOn '\n' := by
  have hline : ∀ c ∈ line, (c == '\n') = false := by
    intro c hc
    rw [beq_eq_false_iff_ne]
    rintro rfl
    exact h hc
  rw [List.splitOn, List.splitOnP_append_cons line rest (by decide), List.splitOnP_eq_singleton hline]
  rfl

/-- The lines of a listing are its heading and one line for each token; behind the last line end nothing is left. -/
theorem splitOn_listing (color : Bool) (tokens : List Token) :
    (listing color tokens).splitOn '\n' =
      heading tokens.length :: (tokens.map (lineFormat color).print ++ [[]]) := by
  have hlines : (tokens.flatMap (listingLine color)).splitOn '\n' = tokens.map (lineFormat color).print ++ [[]] := by
    induction tokens with
    | nil => rfl
    | cons t ts ih =>
      rw [List.flatMap_cons, listingLine_eq, List.append_assoc, List.singleton_append,
        splitOn_line (newline_notMem_lineFormat color t), ih]
      rfl
  have hshown : listing color tokens =
      heading tokens.length ++ '\n' :: tokens.flatMap (listingLine color) := by
    have hending : (") ===\n" : Text) = ") ===" ++ ['\n'] := by decide +kernel
    unfold listing heading
    rw [hending, List.append_assoc, List.append_assoc, List.append_assoc, List.append_assoc]
    rfl
  rw [hshown, splitOn_line (newline_notMem_heading tokens.length), hlines]

/-- Reads a listing: after the heading every line on its own. -/
def readListing? (color : Bool) (s : Text) : Option (List Token) :=
  ((s.splitOn '\n').drop 1).dropLast.mapM (lineFormat color).readAll?

theorem readListing?_listing (color : Bool) (tokens : List Token) :
    readListing? color (listing color tokens) = some tokens := by
  have hread : (lineFormat color).readAll? ∘ (lineFormat color).print = fun t => pure t :=
    funext (lineFormat color).readAll?_print
  rw [readListing?, splitOn_listing, List.drop_one, List.tail_cons, List.dropLast_concat, List.mapM_map, hread]
  exact List.mapM_pure.trans (congrArg some (List.map_id tokens))

/-! ## JSON -/

def jsonKindFormat : Format Kind :=
  .table Kind.all (fun k => jsonString k.jsonName) Kind.mem_all (by decide +kernel)

def jsonTokenFormat : Format Token :=
  let kind := (jsonKindFormat.behind "  \x7b\n    \"kind\": ").before ",\n    \"value\": "
  let value := jsonStringFormat.before ",\n    \"line\": "
  let line := (Format.numeral 0 0 ',' rfl).before "\n    \"column\": "
  let column := (Format.numeral 0 0 '\n' rfl).before "  \x7d"
  ((kind.pair value).pair (line.pair column)).convert
    (fun t => ((t.kind, t.value), t.line, t.column)) (fun f => ⟨f.1.1, f.1.2, f.2.1, f.2.2⟩) fun _ => rfl

theorem jsonTokenFormat_print (t : Token) : jsonTokenFormat.print t = jsonToken t := by
  have hline := print_numeral ',' rfl t.line
  have hcolumn := print_numeral '\n' rfl t.column
  have hcomma : (",\n    \"column\": " : Text) = [','] ++ "\n    \"column\": " := by decide +kernel
  have hend : ("\n  \x7d" : Text) = ['\n'] ++ "  \x7d" := by decide +kernel
  unfold jsonToken
  rw [hcomma, hend]
  simp only [jsonTokenFormat, Format.convert, Format.behind, Format.before, Format.pair, hline, hcolumn,
    jsonStringFormat_print, List.append_assoc]
  rfl

/-- Tokens as a JSON array with a line end behind it, if there are any: the first, and the others with a comma before
each. -/
def jsonFormat : Format (Token × List Token) :=
  let others := (jsonTokenFormat.behind ",\n").many '\n' fun t => ⟨',', '\n' :: jsonTokenFormat.print t, rfl, by decide⟩
  (jsonTokenFormat.behind "[\n").pair (others.before "]\n")

theorem jsonFormat_print (t : Token) (ts : List Token) : jsonFormat.print (t, ts) = json (t :: ts) ++ "\n" := by
  have htoken : jsonTokenFormat.print = jsonToken := funext jsonTokenFormat_print
  unfold json
  simp only [jsonFormat, Format.many, Format.behind, Format.before, Format.pair, htoken, List.append_assoc]
  rfl

/-- Reads a JSON array of tokens and the line end behind it. -/
def readJson? (s : Text) : Option (List Token) :=
  if s = "[]\n" then some [] else (jsonFormat.readAll? s).map fun found => found.1 :: found.2

theorem readJson?_json (tokens : List Token) : readJson? (json tokens ++ "\n") = some tokens := by
  cases tokens with
  | nil => rfl
  | cons t ts =>
    have hne : json (t :: ts) ++ "\n" ≠ ("[]\n" : Text) := by
      intro h
      have hsecond : some '\n' = some ']' := congrArg (fun s : Text => s[1]?) h
      cases hsecond
    rw [readJson?, if_neg hne, ← jsonFormat_print, Format.readAll?_print]
    rfl

/-! ## What the command shows -/

/-- Reads the tokens from what a view shows; a summary does not tell them. -/
def View.recover? (color : Bool) : View → Text → Option (List Token)
  | listing => readListing? color
  | json => readJson?
  | summary => fun _ => none

theorem recover?_render (color : Bool) (tokens : List Token) {v : View} (hv : v ≠ .summary) :
    v.recover? color (v.render color tokens) = some tokens := by
  cases v with
  | listing => exact readListing?_listing color tokens
  | json => exact readJson?_json tokens
  | summary => exact absurd rfl hv

theorem render_congr {color color' : Bool} (tokens : List Token) {v : View} (hv : v ≠ .summary)
    (h : v = .listing → color' = color) : v.render color' tokens = v.render color tokens := by
  cases v with
  | listing => rw [h rfl]
  | json => rfl
  | summary => exact absurd rfl hv

theorem Scans.stdout_eq {read : Source → Id (Except ReadFailure Text)} {arguments : List Text} {o : Options} {s : Text}
    (h : Scans read arguments o s) (hshown : o.strict = false ∨ WellFormed (tokenize s)) (colorWarnings : Bool) :
    Report.stdout (run read colorWarnings arguments) = o.view.render o.color (tokenize s) := by
  rw [h.run_eq colorWarnings]
  cases hstrict : o.strict with
  | false => rw [scanText_lenient colorWarnings hstrict]
  | true =>
    have hwell : WellFormed (tokenize s) := hshown.resolve_left (by rw [hstrict]; decide)
    rw [scanText_strict_of_wellFormed colorWarnings hwell hstrict]

/-- From a listing, its colour being known, and from JSON every token is read back with its kind, value, line and
column; the values make up the text, so two listings of the same colour, or two outputs of JSON, are equal only for the
same text. A listing has one line for each token, which can be read without the others, besides its heading. -/
theorem dump_recovers (read read' : Source → Id (Except ReadFailure Text)) (colorWarnings colorWarnings' : Bool)
    {arguments arguments' : List Text} {o o' : Options} {s s' : Text} (h : Scans read arguments o s)
    (h' : Scans read' arguments' o' s') (hshown : o.strict = false ∨ WellFormed (tokenize s))
    (hshown' : o'.strict = false ∨ WellFormed (tokenize s')) (hview : o.view ≠ .summary)
    (hsame : o'.view = o.view) (hcolor : o.view = .listing → o'.color = o.color) :
    let report : Report := run read colorWarnings arguments
    let report' : Report := run read' colorWarnings' arguments'
    o.view.recover? o.color report.stdout = some (tokenize s) ∧ (tokenize s).flatMap Token.value = s ∧
    (report.stdout = report'.stdout ↔ s = s') ∧
    (o.view = .listing → ∃ lines, report.stdout.splitOn '\n' = heading (tokenize s).length :: (lines ++ [[]]) ∧
      List.Forall₂ (fun line t => (lineFormat o.color).readAll? line = some t) lines (tokenize s)) := by
  intro report report'
  have hreport : report.stdout = o.view.render o.color (tokenize s) := h.stdout_eq hshown colorWarnings
  have hreport' : report'.stdout = o.view.render o.color (tokenize s') := by
    rw [← render_congr (tokenize s') hview hcolor, ← hsame]
    exact h'.stdout_eq hshown' colorWarnings'
  have hrecover := recover?_render o.color (tokenize s) hview
  refine ⟨hreport ▸ hrecover, spelled_tokenize s, ?_, ?_⟩
  · rw [hreport, hreport']
    constructor
    · intro heq
      rw [heq, recover?_render o.color (tokenize s') hview, Option.some_inj] at hrecover
      rw [← spelled_tokenize s, ← spelled_tokenize s', hrecover]
    · rintro rfl
      rfl
  · intro hlisting
    rw [hreport, hlisting]
    refine ⟨_, splitOn_listing o.color (tokenize s), ?_⟩
    rw [List.forall₂_map_left_iff, List.forall₂_same]
    exact fun t _ => (lineFormat o.color).readAll?_print t

/-- A string over two lines with a quotation mark in it, and an escape character that starts no colour. -/
theorem dump_recovers_colored :
    let read : Source → Id (Except ReadFailure Text) := fun
      | .inline css => .ok css
      | _ => .error .notFound
    let shown (css : Text) : Report := run read false ["--css", css]
    Scans read ["--css", "'\\\n\"'\x1b"] ⟨.inline "'\\\n\"'\x1b", .listing, false, true⟩ "'\\\n\"'\x1b" ∧
    readListing? true (shown "'\\\n\"'\x1b").stdout =
      some [⟨.string, "'\\\n\"'", 1, 1⟩, ⟨.unexpected, "\x1b", 2, 3⟩] ∧
    (shown "'\\\n\"'\x1b").stdout ≠ (shown "'\\\n\"'").stdout := by
  intro read shown
  have hscans : Scans read ["--css", "'\\\n\"'\x1b"] ⟨.inline "'\\\n\"'\x1b", .listing, false, true⟩
      "'\\\n\"'\x1b" := ⟨by decide +kernel, rfl⟩
  have hscans' : Scans read ["--css", "'\\\n\"'"] ⟨.inline "'\\\n\"'", .listing, false, true⟩ "'\\\n\"'" :=
    ⟨by decide +kernel, rfl⟩
  have htokens : tokenize "'\\\n\"'\x1b" = [⟨.string, "'\\\n\"'", 1, 1⟩, ⟨.unexpected, "\x1b", 2, 3⟩] := by
    decide +kernel
  obtain ⟨hrecover, -, hdiffer, -⟩ :=
    dump_recovers read read false false hscans hscans' (.inl rfl) (.inl rfl) (by decide) rfl fun _ => rfl
  rw [htokens] at hrecover
  exact ⟨hscans, hrecover, fun heq => absurd (hdiffer.mp heq) (by decide +kernel)⟩

end CssLexer.Command
