/-
  CssLexer.Proofs.Command.Views — the three views of a text, counted against one another.

  A listing shows the tokens line by line under a heading that tells how many they are, JSON one object for each, and a
  summary only how often each kind occurs. Each view is read on its own here, from the text that the command prints: the
  heading and every line, the array, every row. A kind that does not occur has no row, and each token is counted in the
  row of its kind and in no other, so the rows add up to the total.

  Proved:
  - `sum_tally`, `pairwise_tally`, `mem_tally`: what the rows of a summary are.
  - `readSummary?_summary`: a summary is read back, row by row.
  - `countKind_byteOrderMark_le_one`: a text has one byte order mark at most.
  - `views_agree`: the three views of any text.
-/

import CssLexer.Proofs.Adjacency
import CssLexer.Proofs.Command.Recovery
import Mathlib.Algebra.BigOperators.Group.List.Lemmas
import Mathlib.Algebra.GroupWithZero.Nat

namespace CssLexer.Command

/-! ## Tallies -/

/-- The kinds that occur among tokens, each with its number, in the order of summaries. -/
def tally (tokens : List Token) : List (Kind × Nat) :=
  (Kind.all.filter fun k => countKind tokens k ≠ 0).map fun k => (k, countKind tokens k)

variable {tokens : List Token} {k : Kind} {n : Nat}

theorem countKind_eq_count (tokens : List Token) (k : Kind) : countKind tokens k = (tokens.map Token.kind).count k := by
  rw [countKind, List.count, List.countP_map]
  rfl

theorem mem_tally : (k, n) ∈ tally tokens ↔ n = countKind tokens k ∧ n ≠ 0 := by
  simp only [tally, List.mem_map, List.mem_filter, Prod.mk.injEq, decide_eq_true_eq]
  constructor
  · intro ⟨k', ⟨_, hne⟩, hk, hn⟩
    subst hk hn
    exact ⟨rfl, hne⟩
  · intro ⟨hn, hne⟩
    exact ⟨k, ⟨Kind.mem_all k, hn ▸ hne⟩, rfl, hn.symm⟩

theorem map_fst_tally (tokens : List Token) :
    (tally tokens).map Prod.fst = Kind.all.filter fun k => countKind tokens k ≠ 0 := by
  simp [tally, Function.comp_def]

theorem mem_map_fst_tally : k ∈ (tally tokens).map Prod.fst ↔ k ∈ tokens.map Token.kind := by
  rw [map_fst_tally, List.mem_filter, decide_eq_true_eq, countKind_eq_count, Ne, List.count_eq_zero, not_not]
  exact and_iff_right (Kind.mem_all k)

/-- Rows stand in the order in which the kinds are declared, so no kind has two. -/
theorem pairwise_tally (tokens : List Token) :
    (tally tokens).Pairwise fun row row' => row.1.ctorIdx < row'.1.ctorIdx := by
  have hall : Kind.all.Pairwise fun k k' => k.ctorIdx < k'.ctorIdx := by decide
  exact List.pairwise_map.mpr (hall.filter _)

/-- Each token counts in the row of its kind and in no other. -/
theorem sum_tally (tokens : List Token) : ((tally tokens).map Prod.snd).sum = tokens.length := by
  have hnodup : ((tally tokens).map Prod.fst).Nodup :=
    List.pairwise_map.mpr ((pairwise_tally tokens).imp fun h heq => absurd (congrArg Kind.ctorIdx heq) (by omega))
  have hkinds : ((tally tokens).map Prod.fst).Perm (tokens.map Token.kind).dedup := by
    rw [List.perm_ext_iff_of_nodup hnodup (List.nodup_dedup _)]
    intro k
    rw [mem_map_fst_tally, List.mem_dedup]
  have hsnd : (tally tokens).map Prod.snd =
      ((tally tokens).map Prod.fst).map fun k => (tokens.map Token.kind).count k := by
    rw [List.map_map]
    apply List.map_congr_left
    intro ⟨k, n⟩ hrow
    rw [(mem_tally.mp hrow).1, countKind_eq_count]
    rfl
  calc ((tally tokens).map Prod.snd).sum
      = (((tally tokens).map Prod.fst).map fun k => (tokens.map Token.kind).count k).sum := by rw [hsnd]
    _ = ((tokens.map Token.kind).dedup.map fun k => (tokens.map Token.kind).count k).sum := (hkinds.map _).sum_eq
    _ = (tokens.map Token.kind).length := List.sum_map_count_dedup_eq_length _
    _ = tokens.length := List.length_map _

/-! ## The summary -/

def rowWord (color : Bool) (k : Kind) : Text := paint (color && k.isMalformed) .red (kindCell k.label)

theorem rowWord_apart (color : Bool) :
    ∀ k ∈ Kind.all, ∀ k' ∈ Kind.all, rowWord color k <+: rowWord color k' → k = k' := by
  cases color <;> decide +kernel

theorem isDigit_newline : isDigit '\n' = false := rfl

def rowFormat (color : Bool) : Format (Kind × Nat) :=
  ((Format.table Kind.all (rowWord color) Kind.mem_all (rowWord_apart color)).before " ").pair
    (.numeral 0 0 '\n' isDigit_newline)

theorem rowFormat_print (color : Bool) (k : Kind) (n : Nat) :
    (rowFormat color).print (k, n) = rowWord color k ++ " " ++ decimal n ++ "\n" := by
  have hnumber := print_numeral '\n' isDigit_newline n
  simp only [rowFormat, Format.pair, Format.before, Format.table, hnumber, List.append_assoc]
  rfl

theorem summaryRow_eq (color : Bool) (tokens : List Token) (k : Kind) :
    summaryRow color tokens k =
      if countKind tokens k ≠ 0 then (rowFormat color).print (k, countKind tokens k) else [] := by
  rw [rowFormat_print, summaryRow]
  split
  · rename_i h
    rw [h, if_neg (by simp)]
  · rename_i h
    rw [if_pos h]
    rfl

/-- No row starts as the line of the total does. -/
theorem rowFormat_head (color : Bool) (row : Kind × Nat) : ∃ c r, (rowFormat color).print row = c :: r ∧ c ≠ 't' := by
  have hwords : ∀ k ∈ Kind.all, (rowWord color k).head?.any (· ≠ 't') = true := by cases color <;> decide +kernel
  have hword := hwords row.1 (Kind.mem_all row.1)
  rw [rowFormat_print]
  cases hw : rowWord color row.1 with
  | nil => simp [hw] at hword
  | cons c r =>
    rw [hw] at hword
    exact ⟨c, _, rfl, by simpa using hword⟩

def summaryFormat (color : Bool) : Format (List (Kind × Nat) × Nat) :=
  ((rowFormat color).many 't' (rowFormat_head color)).pair
    ((Format.numeral 0 0 '\n' isDigit_newline).behind ((kindCell "total").tail ++ " "))

theorem summaryFormat_print (color : Bool) (tokens : List Token) :
    (summaryFormat color).print (tally tokens, tokens.length) = summary color tokens := by
  have hrows (ks : List Kind) : ks.flatMap (summaryRow color tokens) =
      ((ks.filter fun k => countKind tokens k ≠ 0).map fun k => (k, countKind tokens k)).flatMap
        (rowFormat color).print := by
    induction ks with
    | nil => rfl
    | cons k ks ih =>
      rw [List.flatMap_cons, ih, summaryRow_eq]
      by_cases h : countKind tokens k = 0 <;> simp [h]
  have htotal : (kindCell "total" : Text) = ['t'] ++ (kindCell "total").tail := by decide +kernel
  have hnumber := print_numeral '\n' isDigit_newline tokens.length
  rw [summary, hrows, htotal]
  simp only [summaryFormat, Format.pair, Format.many, Format.behind, hnumber, tally, List.append_assoc]
  rfl

/-- Reads a summary: its rows and its total. -/
def readSummary? (color : Bool) (s : Text) : Option (List (Kind × Nat) × Nat) := (summaryFormat color).readAll? s

theorem readSummary?_summary (color : Bool) (tokens : List Token) :
    readSummary? color (summary color tokens) = some (tally tokens, tokens.length) := by
  rw [readSummary?, ← summaryFormat_print, Format.readAll?_print]

/-! ## The listing -/

/-- The number in the heading of a listing. -/
def headingFormat : Format Nat := ((Format.numeral 0 0 ')' rfl).behind "=== Tokens (").before " ==="

theorem headingFormat_print (n : Nat) : headingFormat.print n = heading n := by
  have hnumber := print_numeral ')' rfl n
  simp only [headingFormat, Format.before, Format.behind, hnumber, List.append_assoc]
  rfl

/-- The kind of the token on a line of a listing. -/
def lineKind? (color : Bool) (line : Text) : Option Kind := ((lineFormat color).readAll? line).map Token.kind

theorem map_lineKind? (color : Bool) (tokens : List Token) :
    (tokens.map (lineFormat color).print).map (lineKind? color) = tokens.map fun t => some t.kind := by
  rw [List.map_map]
  apply List.map_congr_left
  intro t _
  rw [Function.comp_apply, lineKind?, Format.readAll?_print]
  rfl

theorem count_map_kind (tokens : List Token) (k : Kind) :
    (tokens.map fun t => some t.kind).count (some k) = countKind tokens k := by
  rw [countKind, List.count, List.countP_map]
  rfl

/-! ## Marks -/

theorem kind_ne_byteOrderMark_of_mem {t : Token} {ts : List Token} (h : (t :: ts).IsChain Apart) :
    ∀ u ∈ ts, u.kind ≠ .byteOrderMark := by
  induction ts generalizing t with
  | nil => intro u hu; cases hu
  | cons u ts ih =>
    obtain ⟨happart, hrest⟩ := List.isChain_cons_cons.mp h
    intro v hv
    rcases List.mem_cons.mp hv with rfl | hv
    · exact happart.byteOrderMark
    · exact ih hrest v hv

theorem countKind_byteOrderMark_le_one (s : Text) : countKind (tokenize s) .byteOrderMark ≤ 1 := by
  have hchain : (tokenize s).IsChain Apart := (Reader.ofText s).entries_isChain
  cases hts : tokenize s with
  | nil => exact Nat.zero_le 1
  | cons t ts =>
    rw [hts] at hchain
    have hrest : countKind ts .byteOrderMark = 0 := by
      rw [countKind, List.countP_eq_zero]
      intro u hu
      simpa using kind_ne_byteOrderMark_of_mem hchain u hu
    rw [countKind] at hrest ⊢
    rw [List.countP_cons, hrest]
    split <;> omega

/-! ## The views together -/

/-- Three runs on one text, one for each view, whatever they read it from, with or without colour, and strict ones too
if they accept the text. The number in the heading of the listing, the number of lines behind it, the length of the
array, the total of the summary and the sum of its counts are the same. Line by line and object by object the kinds
are the same. The summary has one row for each kind on these lines, in the order of declaration, with the number of
lines and of objects of that kind; the end of the text is never among them, and a byte order mark is there once. -/
theorem views_agree {read : View → Source → Id (Except ReadFailure Text)} {arguments : View → List Text}
    {o : View → Options} {s : Text} (colorWarnings : View → Bool) (h : ∀ v, Scans (read v) (arguments v) (o v) s)
    (hview : ∀ v, (o v).view = v) (hshown : ∀ v, (o v).strict = false ∨ WellFormed (tokenize s)) :
    let shown (v : View) : Text := Report.stdout (run (read v) (colorWarnings v) (arguments v))
    ∃ (n : Nat) (title : Text) (lines : List Text) (objects : List Token) (rows : List (Kind × Nat)),
      (shown .listing).splitOn '\n' = title :: (lines ++ [[]]) ∧ headingFormat.readAll? title = some n ∧
      readJson? (shown .json) = some objects ∧ readSummary? (o .summary).color (shown .summary) = some (rows, n) ∧
      lines.length = n ∧ objects.length = n ∧ (rows.map Prod.snd).sum = n ∧
      let listed := lines.map (lineKind? (o .listing).color)
      listed = objects.map (fun t => some t.kind) ∧
      rows.Pairwise (fun row row' => row.1.ctorIdx < row'.1.ctorIdx) ∧
      (∀ k, k ∈ rows.map Prod.fst ↔ some k ∈ listed) ∧
      ∀ k m, (k, m) ∈ rows → listed.count (some k) = m ∧ objects.countP (fun t => t.kind = k) = m ∧
        k ≠ .endOfText ∧ (k = .byteOrderMark → m = 1) := by
  intro shown
  have hrender (v : View) : shown v = v.render (o v).color (tokenize s) := by
    have hstdout := (h v).stdout_eq (hshown v) (colorWarnings v)
    rwa [hview v] at hstdout
  refine ⟨(tokenize s).length, heading (tokenize s).length, (tokenize s).map (lineFormat (o .listing).color).print,
    tokenize s, tally (tokenize s), ?_, ?_, ?_, ?_, ?_, rfl, sum_tally _, ?_⟩
  · rw [hrender]
    exact splitOn_listing _ (tokenize s)
  · rw [← headingFormat_print, Format.readAll?_print]
  · rw [hrender]
    exact readJson?_json (tokenize s)
  · rw [hrender]
    exact readSummary?_summary _ (tokenize s)
  · rw [List.length_map]
  · rw [map_lineKind?]
    refine ⟨rfl, pairwise_tally _, ?_, ?_⟩
    · intro k
      rw [mem_map_fst_tally]
      simp
    · intro k m hrow
      obtain ⟨hm, hne⟩ := mem_tally.mp hrow
      refine ⟨?_, ?_, ?_, ?_⟩
      · rw [count_map_kind, hm]
      · exact hm.symm
      · intro hk
        have hmem : k ∈ (tokenize s).map Token.kind := mem_map_fst_tally.mp (List.mem_map.mpr ⟨_, hrow, rfl⟩)
        obtain ⟨t, ht, htk⟩ := List.mem_map.mp hmem
        exact (mem_tokenize ht).2 (htk.trans hk)
      · intro hk
        have hle := countKind_byteOrderMark_le_one s
        rw [hk] at hm
        omega

/-- A byte order mark, a name twice and a string that is not closed, in colour. -/
theorem views_agree_mark :
    let css : Text := "\uFEFFa a'"
    let read : View → Source → Id (Except ReadFailure Text) := fun
      | _, .inline css => .ok css
      | _, _ => .error .notFound
    let arguments (v : View) : List Text := (v.flags true).map Flag.argument ++ ["--css=" ++ css]
    let shown (v : View) : Text := Report.stdout (run (read v) false (arguments v))
    (∀ v, Scans (read v) (arguments v) ⟨.inline css, v, false, true⟩ css) ∧
    ∃ title lines objects, (shown .listing).splitOn '\n' = title :: (lines ++ [[]]) ∧
      headingFormat.readAll? title = some 5 ∧ lines.length = 5 ∧
      readJson? (shown .json) = some objects ∧
      readSummary? true (shown .summary) =
        some ([(.ident, 2), (.badString, 1), (.space, 1), (.byteOrderMark, 1)], 5) ∧
      (lines.map (lineKind? true)).count (some .ident) = 2 ∧ objects.countP (fun t => t.kind = .byteOrderMark) = 1 := by
  intro css read arguments shown
  have hscans (v : View) : Scans (read v) (arguments v) ⟨.inline css, v, false, true⟩ css :=
    ⟨ofArguments_inline v true css, rfl⟩
  obtain ⟨n, title, lines, objects, rows, hlisting, htitle, hjson, hsummary, hlength, -, -, -, -, -, hrows⟩ :=
    views_agree (fun _ => false) hscans (fun _ => rfl) fun _ => .inl rfl
  have hread : readSummary? true (shown .summary) =
      some ([(.ident, 2), (.badString, 1), (.space, 1), (.byteOrderMark, 1)], 5) := by decide +kernel
  obtain ⟨hkinds, hn⟩ : [(Kind.ident, 2), (.badString, 1), (.space, 1), (.byteOrderMark, 1)] = rows ∧ 5 = n := by
    simpa using hread.symm.trans hsummary
  subst hkinds hn
  exact ⟨hscans, title, lines, objects, hlisting, htitle, hlength, hjson, hread, (hrows _ _ (by decide)).1,
    (hrows _ _ (by decide)).2.1⟩

end CssLexer.Command
