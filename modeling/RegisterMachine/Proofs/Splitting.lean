import RegisterMachine.Text.Blank
import RegisterMachine.Text.Numeral
import RegisterMachine.Text.Split

/-!
# Text cut where it was joined

Splitting at a separator undoes joining with it if no part holds the separator, and trimming takes
away the blanks that were put between parts and no others.
-/

namespace RegisterMachine.Text

theorem splitFirst?_append {separator : Char} {cs : List Char} (h : separator ∉ cs)
    (rest : List Char) : splitFirst? separator (cs ++ separator :: rest) = some (cs, rest) := by
  induction cs with
  | nil => simp [splitFirst?]
  | cons c cs ih =>
    rw [List.mem_cons, not_or] at h
    simp [splitFirst?, ih h.2, Ne.symm h.1]

theorem splitAll_append {separator : Char} {cs : List Char} (h : separator ∉ cs)
    (rest : List Char) :
    splitAll separator (cs ++ separator :: rest) = cs :: splitAll separator rest := by
  induction cs with
  | nil => simp [splitAll]
  | cons c cs ih =>
    rw [List.mem_cons, not_or] at h
    simp [splitAll, ih h.2, Ne.symm h.1]

theorem splitAll_of_notMem {separator : Char} {cs : List Char} (h : separator ∉ cs) :
    splitAll separator cs = [cs] := by
  induction cs with
  | nil => rfl
  | cons c cs ih =>
    rw [List.mem_cons, not_or] at h
    simp [splitAll, ih h.2, Ne.symm h.1]

/-- Texts that are each ended by a newline are the lines of all of them. -/
theorem lines_of_ended {ls : List (List Char)}
    (h : ∀ l ∈ ls, '\n' ∉ l ∧ l.getLast? ≠ some '\r') :
    lines (ls.flatMap fun l => l ++ ['\n']) = ls := by
  have hpieces : splitAll '\n' (ls.flatMap fun l => l ++ ['\n']) = ls ++ [[]] := by
    induction ls with
    | nil => rfl
    | cons l ls ih =>
      rw [List.forall_mem_cons] at h
      rw [List.flatMap_cons, List.append_assoc, List.singleton_append, splitAll_append h.1.1,
        ih h.2, List.cons_append]
  have hkept : ls.map dropCarriageReturn = ls := by
    refine (List.map_congr_left fun l hl => ?_).trans (List.map_id ls)
    exact if_neg (h l hl).2
  simp [lines, hpieces, hkept]

def Tight (cs : List Char) : Prop :=
  (∀ c ∈ cs.head?, isBlank c = false) ∧ ∀ c ∈ cs.getLast?, isBlank c = false

theorem trimStart_of_head {cs : List Char} (h : ∀ c ∈ cs.head?, isBlank c = false) :
    trimStart cs = cs := by
  cases cs with
  | nil => rfl
  | cons c cs => simp [trimStart, h c rfl]

theorem Tight.trim_eq {cs : List Char} (h : Tight cs) : trim cs = cs := by
  have hend : trimStart cs.reverse = cs.reverse := by
    apply trimStart_of_head
    rw [List.head?_reverse]
    exact h.2
  rw [trim, trimStart_of_head h.1, trimEnd]
  rw [trimStart] at hend
  rw [hend, List.reverse_reverse]

theorem trim_blank {c : Char} (hc : isBlank c = true) (cs : List Char) :
    trim (c :: cs) = trim cs := by
  simp [trim, trimStart, hc]

theorem tight_of_forall {cs : List Char} (h : ∀ c ∈ cs, isBlank c = false) : Tight cs :=
  ⟨fun c hc => h c (List.mem_of_mem_head? hc), fun c hc => h c (List.mem_of_getLast? hc)⟩

theorem tight_singleton {c : Char} (h : isBlank c = false) : Tight [c] :=
  tight_of_forall fun _ hmem => List.mem_singleton.1 hmem ▸ h

theorem Tight.enclose {first last : List Char} (hfirst : Tight first) (hlast : Tight last)
    (hfirst' : first ≠ []) (hlast' : last ≠ []) (cs : List Char) :
    Tight (first ++ cs ++ last) := by
  have hhead : (first ++ cs ++ last).head? = first.head? := by
    rw [List.append_assoc, List.head?_append, List.head?_eq_some_head hfirst', Option.some_or]
  have hend : (first ++ cs ++ last).getLast? = last.getLast? := by
    rw [List.getLast?_append, List.getLast?_eq_some_getLast hlast', Option.some_or]
  exact ⟨by rw [hhead]; exact hfirst.1, by rw [hend]; exact hlast.2⟩

/-- A part of a list: something without blanks and commas. -/
structure Part (cs : List Char) : Prop where
  nonempty : cs ≠ []
  isBlank : ∀ c ∈ cs, isBlank c = false
  comma : ',' ∉ cs

theorem Part.tight {cs : List Char} (h : Part cs) : Tight cs := tight_of_forall h.isBlank

theorem mem_join {separator : String} {c : Char} {texts : List String}
    (h : c ∈ (join separator texts).toList) :
    c ∈ separator.toList ∨ ∃ t ∈ texts, c ∈ t.toList := by
  fun_induction join separator texts
  case case1 => cases h
  case case2 text => exact .inr ⟨text, List.mem_singleton_self text, h⟩
  case case3 text rest _ ih =>
    rw [String.toList_append, String.toList_append, List.append_assoc, List.mem_append,
      List.mem_append] at h
    rcases h with htext | hseparator | hrest
    · exact .inr ⟨text, List.mem_cons_self, htext⟩
    · exact .inl hseparator
    · refine (ih hrest).imp id ?_
      rintro ⟨t, ht, hc⟩
      exact ⟨t, List.mem_cons_of_mem _ ht, hc⟩

theorem join_part {text : String} {texts : List String}
    (h : ∀ t ∈ text :: texts, Part t.toList) :
    (join ", " (text :: texts)).toList ≠ [] ∧ Tight (join ", " (text :: texts)).toList := by
  have htext := h text List.mem_cons_self
  induction texts generalizing text with
  | nil => exact ⟨htext.nonempty, htext.tight⟩
  | cons next texts ih =>
    have hrest := ih (fun t ht => h t (List.mem_cons_of_mem _ ht)) (h next (by simp))
    have hjoin : (join ", " (text :: next :: texts)).toList =
        text.toList ++ [',', ' '] ++ (join ", " (next :: texts)).toList := by
      simp [join]
    rw [hjoin]
    exact ⟨by simp [htext.nonempty],
      htext.tight.enclose hrest.2 htext.nonempty hrest.1 [',', ' ']⟩

theorem map_trim_splitAll_blank {separator c : Char} (hc : isBlank c = true) (hne : c ≠ separator)
    (cs : List Char) :
    (splitAll separator (c :: cs)).map trim = (splitAll separator cs).map trim := by
  rw [splitAll, if_neg hne]
  cases hpieces : splitAll separator cs with
  | nil => exact absurd hpieces (splitAll_ne_nil separator cs)
  | cons piece pieces => simp [trim_blank hc]

theorem map_trim_splitAll_join {text : String} {texts : List String}
    (h : ∀ t ∈ text :: texts, Part t.toList) :
    (splitAll ',' (join ", " (text :: texts)).toList).map trim =
      (text :: texts).map String.toList := by
  have htext := h text List.mem_cons_self
  induction texts generalizing text with
  | nil => simp [join, splitAll_of_notMem htext.comma, htext.tight.trim_eq]
  | cons next texts ih =>
    have hrest := ih (fun t ht => h t (List.mem_cons_of_mem _ ht)) (h next (by simp))
    have hjoin : (join ", " (text :: next :: texts)).toList =
        text.toList ++ ',' :: ' ' :: (join ", " (next :: texts)).toList := by
      simp [join]
    rw [hjoin, splitAll_append htext.comma, List.map_cons, htext.tight.trim_eq,
      map_trim_splitAll_blank (by decide) (by decide), hrest]
    rfl

end RegisterMachine.Text
