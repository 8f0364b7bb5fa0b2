import Mathlib.Data.List.Basic
import ScriptLint.Proofs.Diagnostic.Template

/-!
The layout of a template: text and slots by turns, and at the end what stands behind a brace that is never
closed. A template has one layout, whatever is to be filled in, and filling puts a value in the place of each
slot that the context knows. So all slots are filled at once: what a value says, be it another slot, is not
read.
-/

namespace ScriptLint.Template

/-- Text with no opening brace in it, and what comes behind: nothing, a slot that is never closed, or a slot
with the rest of the template behind it. -/
inductive Layout
  | last (text : List Char) : '{' ∉ text → Layout
  | unclosed (text name : List Char) : '{' ∉ text → '}' ∉ name → Layout
  | slot (text name : List Char) : '{' ∉ text → '}' ∉ name → Layout → Layout

/-- The slot of a name as a template has it. -/
def slot (name : List Char) : List Char := '{' :: (name ++ ['}'])

/-- What the context has for the name of a slot, blanks around the name apart; for a name that it does not know
the slot stays as it is written. -/
def fillSlot (context : Dictionary) (name : List Char) : List Char :=
  match context.find? (String.ofList (Text.trim name)) with
  | some value => value.toList
  | none => slot name

namespace Layout

/-- The text of the layout, with something put for each slot. -/
def render (put : List Char → List Char) : Layout → List Char
  | last text _ => text
  | unclosed text name _ _ => text ++ '{' :: name
  | slot text name _ _ behind => text ++ put name ++ behind.render put

/-- The template that has this layout. -/
def written (l : Layout) : List Char := l.render Template.slot

/-- The template with its slots filled. -/
def filled (context : Dictionary) (l : Layout) : List Char := l.render (fillSlot context)

theorem written_slot {text name : List Char} (htext : '{' ∉ text) (hname : '}' ∉ name) (behind : Layout) :
    (slot text name htext hname behind).written = text ++ '{' :: (name ++ '}' :: behind.written) := by
  simp [written, render, Template.slot]

end Layout

/-- What stands in front of the first of some characters and what stands behind it. -/
theorem append_cons_inj {c : Char} {xs ys us vs : List Char} (hxs : c ∉ xs) (hys : c ∉ ys)
    (h : xs ++ c :: us = ys ++ c :: vs) : xs = ys ∧ us = vs := by
  have hlength : xs.length = ys.length := by
    have hidx := congrArg (List.idxOf c) h
    rwa [List.idxOf_append_of_notMem hxs, List.idxOf_append_of_notMem hys, List.idxOf_cons_self,
      List.idxOf_cons_self] at hidx
  obtain ⟨hfront, hbehind⟩ := List.append_inj h hlength
  exact ⟨hfront, List.tail_eq_of_cons_eq hbehind⟩

/-- Each template has a layout. As filling does, one looks for an opening brace and behind it for a closing
one, and goes on behind the slot. -/
theorem exists_written_eq (template : List Char) : ∃ l : Layout, l.written = template := by
  induction hn : template.length using Nat.strongRecOn generalizing template with
  | ind n ih =>
      subst hn
      by_cases hopen : '{' ∈ template
      case neg => exact ⟨.last template hopen, rfl⟩
      obtain ⟨text, after, rfl, htext⟩ := List.eq_append_cons_of_mem hopen
      by_cases hclose : '}' ∈ after
      case neg => exact ⟨.unclosed text after htext hclose, rfl⟩
      obtain ⟨name, rest, rfl, hname⟩ := List.eq_append_cons_of_mem hclose
      have hshorter : rest.length < (text ++ '{' :: (name ++ '}' :: rest)).length := by
        simp only [List.length_append, List.length_cons]
        omega
      obtain ⟨behind, rfl⟩ := ih _ hshorter rest rfl
      exact ⟨.slot text name htext hname behind, Layout.written_slot _ _ _⟩

/-- No template has two. -/
theorem written_injective {l m : Layout} (h : l.written = m.written) : l = m := by
  -- a text without an opening brace is none with one, and the same for a name and its closing brace
  have hbrace {c : Char} {xs us vs : List Char} (hxs : c ∉ xs) : xs ≠ us ++ c :: vs := by
    rintro rfl
    exact hxs (by simp)
  induction l generalizing m with
  | last text htext =>
      cases m with
      | last text' htext' =>
          obtain rfl : text = text' := h
          rfl
      | unclosed => exact absurd h (hbrace htext)
      | slot => exact absurd (h.trans (Layout.written_slot _ _ _)) (hbrace htext)
  | unclosed text name htext hname =>
      cases m with
      | last text' htext' => exact absurd h.symm (hbrace htext')
      | unclosed text' name' htext' =>
          obtain ⟨rfl, rfl⟩ := append_cons_inj htext htext' h
          rfl
      | slot text' name' htext' =>
          obtain ⟨-, hnames⟩ := append_cons_inj htext htext' (h.trans (Layout.written_slot _ _ _))
          exact absurd hnames (hbrace hname)
  | slot text name htext hname behind ih =>
      rw [Layout.written_slot] at h
      cases m with
      | last text' htext' => exact absurd h.symm (hbrace htext')
      | unclosed text' name' htext' hname' =>
          exact absurd (append_cons_inj htext htext' h).2.symm (hbrace hname')
      | slot text' name' htext' hname' behind' =>
          rw [Layout.written_slot] at h
          obtain ⟨rfl, hnames⟩ := append_cons_inj htext htext' h
          obtain ⟨rfl, hbehind⟩ := append_cons_inj hname hname' hnames
          rw [ih hbehind]

variable {context : Dictionary}

/-- A slot is filled by itself, and what stands behind it is filled as if it stood alone. -/
theorem fillFrom_fillSlot {name : List Char} (hname : '}' ∉ name) (rest : List Char) :
    fillFrom context none ('{' :: (name ++ '}' :: rest)) =
      fillSlot context name ++ fillFrom context none rest := by
  unfold fillSlot
  split
  case h_1 value hvalue => exact fillFrom_slot hname hvalue rest
  case h_2 hnone =>
    rw [fillFrom, if_pos rfl, fillFrom_slot_append hname, List.nil_append, fillFrom, if_pos rfl, hnone]
    simp [slot]

theorem fillFrom_written (l : Layout) : fillFrom context none l.written = l.filled context := by
  induction l with
  | last text htext =>
      have h : fillFrom context none (text ++ []) = _ := fillFrom_append htext []
      rwa [List.append_nil, fillFrom, List.append_nil] at h
  | unclosed text name htext hname =>
      have h : fillFrom context (some []) (name ++ []) = _ := fillFrom_slot_append hname [] []
      rw [List.append_nil, List.nil_append, fillFrom] at h
      show fillFrom context none (text ++ '{' :: name) = text ++ '{' :: name
      rw [fillFrom_append htext, fillFrom, if_pos rfl, h]
  | slot text name htext hname behind ih =>
      show _ = text ++ fillSlot context name ++ behind.filled context
      rw [Layout.written_slot, fillFrom_append htext, fillFrom_fillSlot hname, ih,
        List.append_assoc]

theorem fill_eq_of_written {template : String} {l : Layout} (h : l.written = template.toList)
    (context : Dictionary) : fill template context = String.ofList (l.filled context) := by
  rw [fill, ← h, fillFrom_written]

/-- A template of one slot. -/
theorem fill_slot {template : String} (before name behind : String)
    (hplain : '{' ∉ before.toList ∧ '}' ∉ name.toList ∧ '{' ∉ behind.toList)
    (h : template.toList = before.toList ++ '{' :: (name.toList ++ '}' :: behind.toList))
    (context : Dictionary) :
    fill template context = before ++ String.ofList (fillSlot context name.toList) ++ behind := by
  obtain ⟨hbefore, hname, hbehind⟩ := hplain
  let l := Layout.slot before.toList name.toList hbefore hname (.last behind.toList hbehind)
  have hwritten : l.written = template.toList := by
    rw [h, Layout.written_slot]
    rfl
  rw [fill_eq_of_written hwritten, ← String.toList_inj]
  simp [l, Layout.filled, Layout.render]

/-- What a check has to say is the value of one name, with the same text around all values. -/
theorem message_says_value (c : Check) : ∃ before name behind : String, ∀ context,
    c.message context = before ++ String.ofList (fillSlot context name.toList) ++ behind := by
  cases c with
  | cmdletUse =>
      exact ⟨"Cmdlet '", "command",
        "' may be used incorrectly. Please check that all mandatory parameters are supplied.",
        fill_slot _ _ _ (by decide +kernel) (by decide +kernel)⟩
  | unterminatedString =>
      exact ⟨"string literal is missing the terminator ", "quote", "",
        fill_slot _ _ _ (by decide +kernel) (by decide +kernel)⟩
  | missingCloseBrace | missingCloseParen =>
      exact ⟨"missing closing ", "expected", "", fill_slot _ _ _ (by decide +kernel) (by decide +kernel)⟩
  | unexpectedToken =>
      exact ⟨"unexpected token '", "token", "'", fill_slot _ _ _ (by decide +kernel) (by decide +kernel)⟩
  | nestingTooDeep =>
      exact ⟨"nesting exceeds the maximum depth of ", "limit", "",
        fill_slot _ _ _ (by decide +kernel) (by decide +kernel)⟩

/-- Filling takes a template apart in its text and its slots, in one way only and whatever the context says,
and puts the value of the context in the place of each slot whose name it knows. All else stays as it is
written, and so does a slot that is never closed. So each message of a check has in it what the context says,
letter by letter. -/
theorem fill_puts_values :
    (∀ template : String, ∃! l : Layout, l.written = template.toList ∧
      ∀ context, fill template context = String.ofList (l.filled context)) ∧
    ∀ c : Check, ∃ before name behind : String, ∀ context,
      c.message context = before ++ String.ofList (fillSlot context name.toList) ++ behind := by
  refine ⟨fun template => ?_, message_says_value⟩
  obtain ⟨l, hl⟩ := exists_written_eq template.toList
  exact ⟨l, ⟨hl, fill_eq_of_written hl⟩, fun m hm => written_injective (hm.1.trans hl.symm)⟩

example : fill "unexpected token '\x7btoken\x7d'" (.single "token" "a\x7btoken\x7d") =
    "unexpected token 'a\x7btoken\x7d'" := by decide +kernel

end ScriptLint.Template
