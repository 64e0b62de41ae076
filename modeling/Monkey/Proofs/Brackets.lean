import Monkey.Proofs.Nesting
import Monkey.Proofs.Printable
import Monkey.Proofs.Tracing

/-! The text of a trace as brackets. A reader goes through the lines of a text with the brackets
that are open: a line begins a bracket, or it ends the innermost one and has its name; it is
indented by the number of brackets around it, and in the end nothing is open. The text of every
trace is read to its end, and what is read are the calls that the trace was made of. -/

namespace Monkey

open Monkey.Parser

/-- A pair of lines with one name, and the pairs directly between them. -/
inductive Bracket where
  | mk (name : String) (inside : List Bracket)

namespace Bracket

def name : Bracket → String
  | mk name _ => name

def inside : Bracket → List Bracket
  | mk _ inside => inside

/-! ### Lines -/

/-- A line without its newline: tabs, a word and a name. -/
def line (depth : Nat) (word name : String) : List Char :=
  List.replicate depth '\t' ++ word.toList ++ name.toList

mutual

/-- The lines of a bracket that has `depth` others around it. -/
def lines (depth : Nat) : Bracket → List (List Char)
  | mk name inside =>
    line depth "BEGIN " name :: (linesAll (depth + 1) inside ++ [line depth "END " name])

def linesAll (depth : Nat) : List Bracket → List (List Char)
  | [] => []
  | b :: bs => b.lines depth ++ linesAll depth bs

end

theorem linesAll_append (depth : Nat) (bs cs : List Bracket) :
    linesAll depth (bs ++ cs) = linesAll depth bs ++ linesAll depth cs := by
  induction bs with
  | nil => rfl
  | cons b bs ih => simp only [List.cons_append, linesAll, ih, List.append_assoc]

/-! ### Reading -/

/-- Where a reader stands: the brackets that are complete at this place, and those that are open
around it, the innermost first, each behind the ones that are complete in front of it. -/
structure Reader where
  complete : List Bracket
  opened : List (List Bracket × String)

/-- Reads a line. It begins a bracket, or else it ends the innermost one. -/
def Reader.line? (r : Reader) (l : List Char) : Option Reader :=
  let opening := line r.opened.length "BEGIN " ""
  if opening <+: l then
    some ⟨[], (r.complete, String.ofList (l.drop opening.length)) :: r.opened⟩
  else
    match r.opened with
    | [] => none
    | (front, name) :: outer =>
      if l = line outer.length "END " name then some ⟨front ++ [.mk name r.complete], outer⟩
      else none

/-- Reads a text of complete lines, at whose end no bracket is open. -/
def read? (text : String) : Option (List Bracket) :=
  let pieces := text.toList.splitOn '\n'
  if pieces.getLast? = some [] then
    match pieces.dropLast.foldlM Reader.line? ⟨[], []⟩ with
    | some ⟨complete, []⟩ => some complete
    | _ => none
  else none

theorem line_eq_append (depth : Nat) (word name : String) :
    line depth word name = line depth word "" ++ name.toList := by
  simp [line]

theorem not_begin_prefix_end (depth : Nat) (name : String) :
    ¬ line (depth + 1) "BEGIN " "" <+: line depth "END " name := by
  rintro ⟨rest, h⟩
  have hend : "END ".toList = ['E', 'N', 'D', ' '] := by decide
  simp only [line, List.replicate_succ', List.append_assoc, hend] at h
  cases List.append_cancel_left h

namespace Reader

theorem line?_begin (r : Reader) (name : String) :
    r.line? (line r.opened.length "BEGIN " name) = some ⟨[], (r.complete, name) :: r.opened⟩ := by
  rw [line_eq_append, line?, if_pos (List.prefix_append _ _), List.drop_left, String.ofList_toList]

theorem line?_end (front complete : List Bracket) (name : String)
    (outer : List (List Bracket × String)) :
    line? ⟨complete, (front, name) :: outer⟩ (line outer.length "END " name) =
      some ⟨front ++ [.mk name complete], outer⟩ := by
  simp only [line?, List.length_cons, if_neg (not_begin_prefix_end _ _), if_true]

/-- The lines that have been read. -/
def before : List Bracket → List (List Bracket × String) → List (List Char)
  | complete, [] => linesAll 0 complete
  | complete, (front, name) :: outer => before front outer ++
      line outer.length "BEGIN " name :: linesAll (outer.length + 1) complete

theorem before_append (complete bs : List Bracket) (opened : List (List Bracket × String)) :
    before (complete ++ bs) opened = before complete opened ++ linesAll opened.length bs := by
  cases opened with
  | nil => exact linesAll_append 0 complete bs
  | cons o outer => simp only [before, linesAll_append, List.length_cons, List.append_assoc,
      List.cons_append]

theorem before_line? {r r' : Reader} {l : List Char} (h : r.line? l = some r') :
    before r'.complete r'.opened = before r.complete r.opened ++ [l] := by
  obtain ⟨complete, opened⟩ := r
  simp only [line?] at h
  split at h
  · next hprefix =>
    obtain ⟨rest, rfl⟩ := hprefix
    obtain rfl := Option.some.inj h
    simp only [before, linesAll, List.drop_left]
    rw [line_eq_append, String.toList_ofList]
  · split at h
    · cases h
    · next front name outer =>
      split at h
      · next hl =>
        obtain rfl := Option.some.inj h
        rw [hl, before_append]
        simp [before, linesAll, lines]
      · cases h

theorem before_lines {ls : List (List Char)} {r r' : Reader} (h : ls.foldlM line? r = some r') :
    before r'.complete r'.opened = before r.complete r.opened ++ ls := by
  induction ls generalizing r with
  | nil =>
    obtain rfl := Option.some.inj h
    simp
  | cons l ls ih =>
    rw [List.foldlM_cons] at h
    obtain ⟨r₁, hl, hls⟩ := Option.bind_eq_some_iff.1 h
    rw [ih hls, before_line? hl, List.append_assoc, List.singleton_append]

end Reader

mutual

theorem read_lines (b : Bracket) (r : Reader) : (b.lines r.opened.length).foldlM Reader.line? r =
    some ⟨r.complete ++ [b], r.opened⟩ := by
  obtain ⟨name, inside⟩ := b
  have hinside := read_linesAll inside ⟨[], (r.complete, name) :: r.opened⟩
  simp only [List.length_cons, List.nil_append] at hinside
  simp only [lines, List.foldlM_cons, List.foldlM_append, Reader.line?_begin,
    Option.bind_eq_bind, Option.bind_some, hinside, Reader.line?_end, List.foldlM_nil]
  rfl

theorem read_linesAll (bs : List Bracket) (r : Reader) :
    (linesAll r.opened.length bs).foldlM Reader.line? r =
      some ⟨r.complete ++ bs, r.opened⟩ := by
  cases bs with
  | nil => simp [linesAll]
  | cons b bs =>
    have hrest := read_linesAll bs ⟨r.complete ++ [b], r.opened⟩
    rw [linesAll, List.foldlM_append, read_lines b r]
    rwa [List.append_assoc] at hrest

end

/-- The text of brackets side by side, each line with its newline. -/
def text (bs : List Bracket) : String := String.ofList ((linesAll 0 bs).flatMap (· ++ ['\n']))

theorem intercalate_lines (ls : List (List Char)) :
    ['\n'].intercalate (ls ++ [[]]) = ls.flatMap (· ++ ['\n']) := by
  induction ls with
  | nil => rfl
  | cons l ls ih =>
    have hne : ls ++ [[]] ≠ [] := List.append_ne_nil_of_right_ne_nil ls (List.cons_ne_nil _ _)
    rw [List.cons_append, List.intercalate_cons_of_ne_nil hne, ih, List.flatMap_cons]

/-- Between the newlines of a text stand its lines, and nothing behind the last one. -/
theorem splitOn_text {bs : List Bracket} (h : ∀ l ∈ linesAll 0 bs, '\n' ∉ l) :
    (text bs).toList.splitOn '\n' = linesAll 0 bs ++ [[]] := by
  rw [text, String.toList_ofList, ← intercalate_lines]
  refine List.splitOn_intercalate '\n' (fun l hl => ?_)
    (List.append_ne_nil_of_right_ne_nil _ (List.cons_ne_nil _ _))
  rcases List.mem_append.1 hl with hl | hl
  · exact h l hl
  · simp_all

/-- The brackets that are read are those whose text it is, each of its lines being one line. -/
theorem read?_eq_some_iff {s : String} {bs : List Bracket} :
    read? s = some bs ↔ s = text bs ∧ ∀ l ∈ linesAll 0 bs, '\n' ∉ l := by
  constructor
  · intro h
    simp only [read?] at h
    split at h
    · next hlast =>
      obtain ⟨ls, hls⟩ := List.getLast?_eq_some_iff.1 hlast
      rw [hls, List.dropLast_concat] at h
      split at h
      · next complete hread =>
        obtain rfl := Option.some.inj h
        have hlines : linesAll 0 complete = ls := Reader.before_lines hread
        refine ⟨?_, fun l hl => ?_⟩
        · have hjoin : ['\n'].intercalate (s.toList.splitOn '\n') = s.toList :=
            List.intercalate_splitOn '\n'
          rw [hls, intercalate_lines, ← hlines] at hjoin
          rw [text, hjoin, String.ofList_toList]
        · have hmem : l ∈ s.toList.splitOn '\n' := by
            rw [hls, ← hlines]
            exact List.mem_append_left _ hl
          exact not_mem_of_mem_splitOn hmem
      · cases h
    · cases h
  · rintro ⟨rfl, hplain⟩
    have hread : (linesAll 0 bs).foldlM Reader.line? ⟨[], []⟩ = some ⟨bs, []⟩ :=
      read_linesAll bs ⟨[], []⟩
    simp [read?, splitOn_text hplain, hread]

example : read? "BEGIN a\n\tBEGIN b\n\tEND b\nEND a\n" = some [mk "a" [mk "b" []]] := by rfl

/-! ### What stands where -/

/-- The bracket is one of these or inside one of them, at any depth. -/
inductive Within (bs : List Bracket) : Bracket → Prop where
  | here {b : Bracket} : b ∈ bs → Within bs b
  | inside {b c : Bracket} : Within bs b → c ∈ b.inside → Within bs c

mutual

/-- The largest number of brackets with this name that are open at once in a bracket, itself
included. -/
def openAtOnce (name : String) : Bracket → Nat
  | mk n inside => openAtOnceAll name inside + if n = name then 1 else 0

def openAtOnceAll (name : String) : List Bracket → Nat
  | [] => 0
  | b :: bs => max (b.openAtOnce name) (openAtOnceAll name bs)

end

/-- Directly inside every statement stands one bracket, that of a form of statements. -/
def Formed (bs : List Bracket) : Prop :=
  ∀ b, Within bs b → b.name = "parse_statement" → ∃ c, b.inside = [c] ∧
    c.name ∈ ["parse_let_statement", "parse_return_statement", "parse_expression_statement"]

theorem Within.of_append {bs cs : List Bracket} {b : Bracket} (h : Within (bs ++ cs) b) :
    Within bs b ∨ Within cs b := by
  induction h with
  | here hmem => exact (List.mem_append.1 hmem).imp .here .here
  | inside _ hin ih => exact ih.imp (.inside · hin) (.inside · hin)

theorem Within.of_mk {n : String} {bs : List Bracket} {b : Bracket} (h : Within [mk n bs] b) :
    b = mk n bs ∨ Within bs b := by
  induction h with
  | here hmem => exact .inl (List.mem_singleton.1 hmem)
  | inside _ hin ih =>
    rcases ih with rfl | hwithin
    · exact .inr (.here hin)
    · exact .inr (.inside hwithin hin)

theorem not_within_nil (b : Bracket) : ¬ Within [] b := by
  intro h
  induction h with
  | here hmem => cases hmem
  | inside _ _ ih => exact ih

theorem formed_nil : Formed [] := fun b h => absurd h (not_within_nil b)

theorem Formed.append {bs cs : List Bracket} (hb : Formed bs) (hc : Formed cs) :
    Formed (bs ++ cs) := fun b h hname => h.of_append.elim (hb b · hname) (hc b · hname)

theorem Formed.mk {n : String} {bs : List Bracket} (hb : Formed bs)
    (hn : n = "parse_statement" → ∃ c, bs = [c] ∧
      c.name ∈ ["parse_let_statement", "parse_return_statement", "parse_expression_statement"]) :
    Formed [.mk n bs] := by
  intro b h hname
  rcases h.of_mk with rfl | hwithin
  · exact hn hname
  · exact hb b hwithin hname

end Bracket

/-! ### Calls -/

mutual

/-- The bracket that a call makes in a trace. -/
def Call.bracket : Call → Bracket
  | ⟨rule, _, _, _, calls⟩ => .mk rule.name (Call.brackets calls)

def Call.brackets : List Call → List Bracket
  | [] => []
  | c :: cs => c.bracket :: Call.brackets cs

end

namespace Call

theorem brackets_append (cs ds : List Call) : brackets (cs ++ ds) = brackets cs ++ brackets ds := by
  induction cs with
  | nil => rfl
  | cons c cs ih => rw [List.cons_append, brackets, ih, brackets, List.cons_append]

theorem name_bracket (c : Call) : c.bracket.name = c.rule.name := by
  cases c
  rfl

mutual

theorem toList_lines (depth : Nat) (c : Call) :
    (c.lines depth).map String.toList = c.bracket.lines depth := by
  obtain ⟨rule, start, stop, complete, calls⟩ := c
  have hinside := toList_linesAll (depth + 1) calls
  simp [lines, bracket, Bracket.lines, Bracket.line, toList_pushn, ← hinside]

theorem toList_linesAll (depth : Nat) (cs : List Call) :
    (linesAll depth cs).map String.toList = Bracket.linesAll depth (brackets cs) := by
  cases cs with
  | nil => rfl
  | cons c cs =>
    rw [linesAll, List.map_append, toList_lines depth c, toList_linesAll depth cs]
    rfl

end

theorem tab_or_printable_line (depth : Nat) {word : String} (hword : Printable word) (r : Rule) :
    ∀ c ∈ Bracket.line depth word r.name, c = '\t' ∨ isPrintable c = true := by
  have hname : Printable r.name := by cases r <;> decide
  intro c hc
  simp only [Bracket.line, List.mem_append, List.mem_replicate] at hc
  rcases hc with (⟨-, rfl⟩ | hc) | hc
  · exact .inl rfl
  · exact .inr (printable_iff.1 hword c hc)
  · exact .inr (printable_iff.1 hname c hc)

mutual

theorem tab_or_printable_lines (depth : Nat) (c : Call) :
    ∀ l ∈ c.bracket.lines depth, ∀ d ∈ l, d = '\t' ∨ isPrintable d = true := by
  obtain ⟨rule, start, stop, complete, calls⟩ := c
  have hinside := tab_or_printable_linesAll (depth + 1) calls
  intro l hl
  simp only [bracket, Bracket.lines, List.mem_cons, List.mem_append, List.not_mem_nil,
    or_false] at hl
  rcases hl with rfl | hl | rfl
  · exact tab_or_printable_line depth (by decide) rule
  · exact hinside l hl
  · exact tab_or_printable_line depth (by decide) rule

/-- Lines of a trace are made of tabs and printable characters. -/
theorem tab_or_printable_linesAll (depth : Nat) (cs : List Call) :
    ∀ l ∈ Bracket.linesAll depth (brackets cs), ∀ d ∈ l, d = '\t' ∨ isPrintable d = true := by
  cases cs with
  | nil => simp [brackets, Bracket.linesAll]
  | cons c cs =>
    have hc := tab_or_printable_lines depth c
    have hcs := tab_or_printable_linesAll depth cs
    simp only [brackets, Bracket.linesAll, List.mem_append]
    exact fun l hl => hl.elim (hc l) (hcs l)

end

theorem newline_not_mem_linesAll (depth : Nat) (cs : List Call) :
    ∀ l ∈ Bracket.linesAll depth (brackets cs), '\n' ∉ l :=
  fun l hl hmem => absurd (tab_or_printable_linesAll depth cs l hl '\n' hmem) (by decide)

end Call

theorem traceText_eq_text (cs : List Call) : traceText cs = Bracket.text (Call.brackets cs) := by
  rw [← String.toList_inj, traceText, Bracket.text, ← Call.toList_linesAll]
  simp [List.flatMap_map]

/-- Reading the text of a trace gives the calls back. -/
theorem Bracket.read?_traceText (cs : List Call) : read? (traceText cs) = some (Call.brackets cs) :=
  read?_eq_some_iff.2 ⟨traceText_eq_text cs, Call.newline_not_mem_linesAll 0 cs⟩

/-! ### Calls of a parse -/

theorem Rule.name_eq_expression_iff (r : Rule) : r.name = "parse_expression" ↔ r = .expression := by
  cases r <;> decide

theorem Rule.name_eq_statement_iff (r : Rule) : r.name = "parse_statement" ↔ r = .statement := by
  cases r <;> decide

theorem Rule.name_of_isStatementForm {r : Rule} (h : r.isStatementForm = true) :
    r.name ∈ ["parse_let_statement", "parse_return_statement", "parse_expression_statement"] := by
  revert h
  cases r <;> decide

mutual

theorem Call.openAtOnce_bracket (c : Call) :
    c.bracket.openAtOnce "parse_expression" = c.nesting := by
  obtain ⟨rule, start, stop, complete, calls⟩ := c
  simp only [bracket, Bracket.openAtOnce, nesting, Rule.name_eq_expression_iff]
  rw [openAtOnce_brackets calls]

theorem Call.openAtOnce_brackets (cs : List Call) :
    Bracket.openAtOnceAll "parse_expression" (brackets cs) = nestingAll cs := by
  cases cs with
  | nil => rfl
  | cons c cs =>
    simp only [brackets, Bracket.openAtOnceAll, nestingAll]
    rw [openAtOnce_bracket c, openAtOnce_brackets cs]

end

theorem formed_rule {r : Rule} {ts us : List Token} {ok : Bool} {cs : List Call}
    (hs : r = .statement → ∃ c, cs = [c] ∧ c.rule.isStatementForm = true)
    (hcs : Bracket.Formed (Call.brackets cs)) :
    Bracket.Formed (Call.brackets [⟨r, ts, us, ok, cs⟩]) := by
  refine hcs.mk fun hname => ?_
  obtain ⟨c, rfl, hc⟩ := hs ((Rule.name_eq_statement_iff r).1 hname)
  exact ⟨c.bracket, rfl, c.name_bracket ▸ Rule.name_of_isStatementForm hc⟩

theorem formed_congruence :
    Congruence fun p _ => ∀ ts, Bracket.Formed (Call.brackets (p.run ts).calls) := by
  refine .ofCalls (Q := fun cs => Bracket.Formed (Call.brackets cs)) Bracket.formed_nil
    (fun cs ds hc hd => ?_) fun r ts us ok cs _ hs hcs => formed_rule hs hcs
  rw [Call.brackets_append]
  exact hc.append hd

theorem expression_formed (n : Nat) (p : Precedence) (ts : List Token) :
    Bracket.Formed (Call.brackets ((Grammar.expression n p).run ts).calls) := by
  induction n generalizing p ts with
  | zero => exact Bracket.formed_nil
  | succ n ih =>
    have hchain := @Congruence.chain _ formed_congruence (Grammar.expression n)
      (Grammar.expression n) ih p ts
    exact formed_rule nofun hchain

theorem program_formed (ts : List Token) :
    Bracket.Formed (Call.brackets (Grammar.program ts).calls) :=
  @Congruence.itemsUntil _ formed_congruence (Grammar.expression Grammar.maxNesting)
    (Grammar.expression Grammar.maxNesting) (expression_formed Grammar.maxNesting) _ ts

/-- Items that are read by a rule make calls of this rule, side by side. -/
theorem items_rule {α : Type} (stop : Token → Bool) (r : Rule) (p : Parser α) (ts : List Token) :
    ∀ b ∈ Call.brackets (items stop (rule r p) ts).calls, b.name = r.name := by
  induction ts using items_induction stop (rule r p) with
  | nil => simp [items, Call.brackets]
  | done t ts ht => simp [items, ht, Call.brackets]
  | step t ts ht ih =>
    rw [items_cons ht, Outcome.beforeItems_calls]
    exact List.forall_mem_cons.2 ⟨rfl, ih⟩

open Machine

/-- The trace of a parse, whatever the source, is a sequence of complete lines that nest: each
begins a bracket or ends the innermost one, by its name, and is indented by the brackets around it.
All are statements at the top, in each of which stands one form of a statement, and no more than
the permitted number of expressions are open at once. -/
theorem trace_brackets (source : String) :
    let text := traceText (parse source).calls
    ReadsTo source (some (.empty none)) (parse source).value (parse source).diagnostics
      (some ⟨text.toUTF8, none⟩) ∧
    ((Reading.ofLexer (Lexer.ofString source)).traceTo (.empty none)).program.2.sink =
      some ⟨text.toUTF8, none⟩ ∧
    ∃ bs, Bracket.read? text = some bs ∧
      (∀ b ∈ bs, b.name = "parse_statement") ∧
      (∀ b, Bracket.Within bs b → b.name = "parse_statement" → ∃ c, b.inside = [c] ∧
        c.name ∈ ["parse_let_statement", "parse_return_statement", "parse_expression_statement"]) ∧
      Bracket.openAtOnceAll "parse_expression" bs ≤ 64 := by
  have hsink := readsTo source (some (.empty none))
  simp only [Option.map_some, Sink.empty_write] at hsink
  refine ⟨hsink, congrArg some (Sink.empty_write none _), _, Bracket.read?_traceText _,
    items_rule _ _ _ _, program_formed _, ?_⟩
  rw [Call.openAtOnce_brackets]
  exact nesting_items_le Grammar.maxNesting _ _

end Monkey
