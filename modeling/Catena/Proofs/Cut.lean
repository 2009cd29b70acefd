import Catena.Proofs.Obstacle

/-!
# Beginnings of texts

A text that is cut off is read as the whole text is, as far as it goes: what is derived in
front of the cut stays so (`Grammar.Derives.truncate`). The cut itself may go through an
item. Half a numeral or half a name is still read; a colon without its name and a string
without its end are not, and a quote that is cut stays open. A sequence that is cut off thus
*breaks off*: it is a sequence, and behind it may stand the beginning of an item, but no
other obstacle.

* `Grammar.Derives.unfinished`: a beginning of a sequence breaks off;
* `Grammar.Stuck.cut`: a beginning of a text that is stuck is stuck.
-/

namespace Catena.Grammar

/-- The beginning of an item at the end of a text, or nothing. -/
inductive BreaksOff (lv : Level) : List Char → Prop
  | ended : BreaksOff lv []
  | symbol : BreaksOff lv [':']
  | string {mark s} : mark = '\'' ∨ mark = '\"' → mark ∉ s → BreaksOff lv (mark :: s)

/-- The text is a sequence that breaks off, in no more than `k` quotes inside one another. -/
def Unfinished (lv : Level) (k : Nat) (u : List Char) : Prop :=
  ∃ ms r n, Derives u ms r ∧ Stuck BreaksOff lv n r ∧ max (depth ms) n ≤ k

variable {s t u r rest w : List Char} {ns ps : List Node} {l : Leaf} {lv : Level} {n k m : Nat}
  {c : Char}

theorem BreaksOff.obstacle (h : BreaksOff lv s) : Obstacle lv s := by
  cases h with
  | ended => exact .ended
  | symbol => exact .symbol stops_nil
  | string hm hs => exact .string hm hs

/-! ### What is derived in front of the cut -/

theorem Longest.truncate {L : List Char → Prop} (h : Longest L (s ++ t) w (rest ++ t)) :
    Longest L s w rest := by
  refine ⟨?_, h.mem, fun t' rest' he => ?_⟩
  · have he := h.eq
    rw [← List.append_assoc] at he
    exact List.append_cancel_right he
  · exact h.maximal t' (rest' ++ t) (by rw [he, List.append_assoc])

theorem LeafAt.truncate (h : LeafAt (s ++ t) l (rest ++ t)) : LeafAt s l rest := by
  obtain rfl : s = l.text ++ rest := by
    have he := h.eq
    rw [← List.append_assoc] at he
    exact List.append_cancel_right he
  generalize hx : l.text ++ rest ++ t = x at h
  generalize hy : rest ++ t = y at h
  cases h with
  | number hl =>
    subst hx hy
    exact .number hl.truncate
  | symbol hl =>
    subst hy
    obtain ⟨-, rfl⟩ := List.cons.inj hx
    exact .symbol hl.truncate
  | string hm hc => simpa [Leaf.text] using LeafAt.string hm hc
  | atom hn hl =>
    subst hx hy
    refine .atom (fun t' rest' he => ?_) hl.truncate
    exact hn t' (rest' ++ t) (by rw [he, List.append_assoc])

/-- What is derived does not depend on the end of the text behind it. -/
theorem Derives.truncate (h : Derives s ns (r ++ t)) : Derives (text ns ++ r) ns r := by
  generalize hr : r ++ t = rest at h
  induction h generalizing r with
  | done => exact .done
  | blank hc _ ih => exact .blank hc (ih hr)
  | @leaf l s s' ns rest hl hd ih =>
    have he : s' = text ns ++ r ++ t := by rw [hd.eq, ← hr, List.append_assoc]
    rw [text, Node.text, List.append_assoc]
    refine .leaf (LeafAt.truncate (t := t) ?_) (ih hr)
    rwa [List.append_assoc, ← he, ← hl.eq]
  | @block s s' body ns rest hb hd ihb ih =>
    have he : ']' :: (text ns ++ r) ++ t = ']' :: s' := by
      rw [hd.eq, ← hr, List.cons_append, List.append_assoc]
    simpa [text, Node.text] using Derives.block (ihb he) (ih hr)
  | @clause s s' s'' ps body ns rest hp hb hd ihp ihb ih =>
    have he : ']' :: (text ns ++ r) ++ t = ']' :: s'' := by
      rw [hd.eq, ← hr, List.cons_append, List.append_assoc]
    have he' : '|' :: (text body ++ ']' :: (text ns ++ r)) ++ t = '|' :: s' := by
      rw [hb.eq, ← he]
      simp
    simpa [text, Node.text] using Derives.clause (ihp he') (ihb he) (ih hr)

/-! ### Items that are cut -/

theorem Numeral.mem_text {n : Numeral} (h : c ∈ n.text) :
    Text.isNameChar c = true ∨ c.isDigit = true := by
  simp only [text, sign, point, List.mem_append] at h
  rcases h with h | h | h
  · split at h
    · rw [List.mem_singleton.1 h]
      exact .inl rfl
    · cases h
  · exact .inr (n.isDigit_whole c h)
  · split at h
    · cases h
    · rcases List.mem_cons.1 h with rfl | h
      · exact .inl rfl
      · exact .inr (n.isDigit_fraction c h)

/-- A text of digits and name characters is a sequence. -/
theorem exists_derives_of_plain (h : ∀ c ∈ u, Text.isNameChar c = true ∨ c.isDigit = true) :
    ∃ ms, Derives u ms [] ∧ depth ms = 0 := by
  induction hn : u.length using Nat.strongRecOn generalizing u with
  | ind k ih =>
    subst hn
    rcases u with _ | ⟨c, u⟩
    · exact ⟨[], .done, rfl⟩
    obtain ⟨l, rest, hl⟩ := exists_leafAt (s := u) (h c List.mem_cons_self)
    have hr : ∀ c ∈ rest, Text.isNameChar c = true ∨ c.isDigit = true := fun c hc =>
      h c (hl.eq ▸ List.mem_append_right _ hc)
    obtain ⟨ms, hd, hm⟩ := ih _ (Token.length_scan_lt hl.scan_eq) hr rfl
    exact ⟨_, .leaf hl hd, by simp [depth, Node.depth, hm]⟩

theorem Unfinished.nil : Unfinished lv k [] :=
  ⟨[], [], 0, .done, .here .ended, Nat.zero_le _⟩

theorem Unfinished.of_breaksOff (h : BreaksOff lv u) : Unfinished lv k u :=
  ⟨[], u, 0, .done, .here h, Nat.zero_le _⟩

theorem Unfinished.of_derives (h : Derives u ns []) (hk : depth ns ≤ k) : Unfinished lv k u :=
  ⟨ns, [], 0, h, .here .ended, by simpa using hk⟩

theorem Unfinished.mono (h : Unfinished lv k u) (hk : k ≤ m) : Unfinished lv m u := by
  obtain ⟨ms, r, n, hd, hr, hn⟩ := h
  exact ⟨ms, r, n, hd, hr, hn.trans hk⟩

theorem Unfinished.append (h : Derives u ns t) (ht : Unfinished lv k t) :
    Unfinished lv (max (depth ns) k) u := by
  obtain ⟨ms, r, n, hd, hr, hn⟩ := ht
  refine ⟨ns ++ ms, r, n, h.append hd, hr, ?_⟩
  rw [depth_append]
  omega

theorem Unfinished.body (h : Unfinished .unbarred k u) : Unfinished lv (k + 1) ('[' :: u) := by
  obtain ⟨ms, r, n, hd, hr, hn⟩ := h
  exact ⟨[], _, _, .done, .body hd hr, by simp only [depth]; omega⟩

theorem Unfinished.clause (hp : Derives u ps ('|' :: t)) (h : Unfinished .barred k t) :
    Unfinished lv (max (depth ps) k + 1) ('[' :: u) := by
  obtain ⟨ms, r, n, hd, hr, hn⟩ := h
  exact ⟨[], _, _, .done, .clause hp hd hr, by simp only [depth]; omega⟩

/-- A text that ends in front of a character of another one, or behind it. -/
theorem append_eq_append_cons {s t u v : List Char} (h : s ++ t = u ++ c :: v) :
    (∃ b, u = s ++ b) ∨ ∃ b, s = u ++ c :: b ∧ v = b ++ t := by
  rcases List.append_eq_append_iff.1 h with ⟨b, hb, -⟩ | ⟨b, hb, hc⟩
  · exact .inl ⟨b, hb⟩
  · rcases b with _ | ⟨d, b⟩
    · exact .inl ⟨[], by rw [hb, List.append_nil, List.append_nil]⟩
    · obtain ⟨rfl, hv⟩ := List.cons.inj hc
      exact .inr ⟨b, hb, hv⟩

theorem LeafAt.unfinished (h : LeafAt s l rest) (hu : l.text = u ++ t) : Unfinished lv 0 u := by
  have plain (hc : ∀ c ∈ u ++ t, Text.isNameChar c = true ∨ c.isDigit = true) :
      Unfinished lv 0 u := by
    obtain ⟨ms, hd, hm⟩ := exists_derives_of_plain fun c h => hc c (List.mem_append_left _ h)
    exact .of_derives hd hm.le
  rcases u with _ | ⟨d, u⟩
  · exact .nil
  cases h with
  | @number n _ _ hl =>
    rw [Leaf.text] at hu
    exact plain fun c hc => Numeral.mem_text (n := n) (hu ▸ hc)
  | atom hn hl =>
    rw [Leaf.text] at hu
    exact plain fun c hc => .inl ((isName_iff.1 hl.mem).2 c (hu ▸ hc))
  | @symbol name s _ hl =>
    obtain ⟨rfl, hn⟩ := List.cons.inj hu
    by_cases he : u = []
    · exact he ▸ .of_breaksOff .symbol
    · -- What is left of the name is one.
      have hu : IsName u := isName_iff.2
        ⟨he, fun c hc => (isName_iff.1 hl.mem).2 c (hn ▸ List.mem_append_left _ hc)⟩
      have hl' : Longest IsName u u [] := by simpa using longest_isName hu stops_nil
      exact .of_derives (.leaf (.symbol hl') .done) le_rfl
  | @string mark content _ hm hc =>
    obtain ⟨rfl, hn⟩ := List.cons.inj hu
    have hn : u ++ t = content ++ mark :: [] := hn.symm
    rcases append_eq_append_cons hn with ⟨b, rfl⟩ | ⟨b, rfl, hb⟩
    · exact .of_breaksOff (.string hm fun h => hc (List.mem_append_left _ h))
    · obtain rfl := (List.append_eq_nil_iff.1 hb.symm).1
      exact .of_derives (.leaf (.string hm hc) .done) le_rfl

/-! ### Sequences and obstacles that are cut -/

theorem text_block : text (.block ns :: ps) = '[' :: (text ns ++ ']' :: text ps) := by
  simp [text, Node.text]

theorem text_clause {ms : List Node} :
    text (.clause ps ns :: ms) = '[' :: (text ps ++ '|' :: (text ns ++ ']' :: text ms)) := by
  simp [text, Node.text]

/-- A half of a quote up to its mark, and the mark. -/
theorem Derives.truncate_cons {v : List Char} (h : Derives s ns (c :: v)) (hv : v = u ++ t) :
    Derives (text ns ++ c :: u) ns (c :: u) :=
  Derives.truncate (t := t) (hv ▸ h)

/-- A sequence that is cut off breaks off. -/
theorem Derives.unfinished (h : Derives s ns rest) (hu : text ns = u ++ t) :
    Unfinished lv (depth ns) u := by
  induction h generalizing lv u t with
  | done =>
    obtain rfl := (List.append_eq_nil_iff.1 hu.symm).1
    exact .nil
  | blank hc _ ih =>
    rcases u with _ | ⟨d, u⟩
    · exact .nil
    obtain ⟨rfl, hn⟩ := List.cons.inj hu
    exact (ih hn).append (.blank hc .done)
  | @leaf l s s' ns rest hl hd ih =>
    rcases List.append_eq_append_iff.1 hu with ⟨b, rfl, hb⟩ | ⟨b, hb, -⟩
    · have he : LeafAt (l.text ++ b) l b := by
        refine LeafAt.truncate (t := t ++ rest) ?_
        rwa [List.append_assoc, ← List.append_assoc b, ← hb, ← hd.eq, ← hl.eq]
      exact (ih hb).append (.leaf he .done)
    · exact (hl.unfinished hb).mono (Nat.zero_le _)
  | @block s s' body ns rest hb hd ihb ih =>
    rcases u with _ | ⟨d, u⟩
    · exact .nil
    rw [text_block] at hu
    obtain ⟨rfl, hn⟩ := List.cons.inj hu
    rcases append_eq_append_cons hn.symm with ⟨b, hc⟩ | ⟨b, rfl, hc⟩
    · exact (ihb hc).body.mono (Nat.le_max_left _ _)
    · have he := hb.truncate_cons (u := b) (t := t ++ rest)
        (by rw [hd.eq, hc, List.append_assoc])
      exact (ih hc).append (.block he .done)
  | @clause s s' s'' ps body ns rest hp hb hd ihp ihb ih =>
    rcases u with _ | ⟨d, u⟩
    · exact .nil
    rw [text_clause] at hu
    obtain ⟨rfl, hn⟩ := List.cons.inj hu
    rcases append_eq_append_cons hn.symm with ⟨b, hc⟩ | ⟨b, rfl, hc⟩
    · refine (ihp hc).body.mono ?_
      simp only [depth, Node.depth]
      omega
    · have he := hp.truncate_cons (u := b) (t := t ++ rest)
        (by rw [hb.eq, hd.eq, ← List.append_assoc b, ← hc, List.append_assoc, List.cons_append])
      rcases append_eq_append_cons hc.symm with ⟨b', hc'⟩ | ⟨b', rfl, hc'⟩
      · refine (Unfinished.clause he (ihb hc')).mono ?_
        simp only [depth, Node.depth]
        omega
      · have he' := hb.truncate_cons (u := b') (t := t ++ rest)
          (by rw [hd.eq, hc', List.append_assoc])
        exact (ih hc').append (.clause he he' .done)

theorem stops_of_append {p : Char → Bool} (h : Stops p (u ++ t)) : Stops p u := by
  rcases u with _ | ⟨c, u⟩
  · exact stops_nil
  · exact stops_cons.2 (stops_cons.1 h)

theorem Obstacle.cut (h : Obstacle lv (u ++ t)) : Obstacle lv u := by
  rcases u with _ | ⟨c, u⟩
  · exact .ended
  rw [List.cons_append] at h
  cases h with
  | symbol hs => exact .symbol (stops_of_append hs)
  | string hm hs => exact .string hm fun h => hs (List.mem_append_left _ h)
  | closing hlv => exact .closing hlv
  | bar hlv => exact .bar hlv

/-- A sequence with a text behind it of which every beginning is stuck. -/
theorem Derives.cut (h : Derives s ns r) (hr : ∀ {b}, r = b ++ t → ∃ n, Stuck Obstacle lv n b)
    (hs : s = u ++ t) : ∃ ms b n, Derives u ms b ∧ Stuck Obstacle lv n b := by
  rw [h.eq] at hs
  rcases List.append_eq_append_iff.1 hs with ⟨b, rfl, hb⟩ | ⟨b, hb, -⟩
  · obtain ⟨n, hn⟩ := hr hb
    exact ⟨ns, b, n, Derives.truncate (t := t) (hb ▸ h), hn⟩
  · obtain ⟨ms, b, n, hd, hn, -⟩ : Unfinished lv (depth ns) u := h.unfinished hb
    exact ⟨ms, b, n, hd, hn.mono fun _ _ => BreaksOff.obstacle⟩

/-- A text that is stuck is so when it is cut off. -/
theorem Stuck.cut (h : Stuck Obstacle lv n s) (hs : s = u ++ t) :
    ∃ n, Stuck Obstacle lv n u := by
  induction h generalizing u t with
  | here he => exact ⟨0, .here (hs ▸ he).cut⟩
  | body hb _ ih =>
    rcases u with _ | ⟨c, u⟩
    · exact ⟨0, .here .ended⟩
    obtain ⟨rfl, ht⟩ := List.cons.inj hs
    obtain ⟨ms, b, n, hd, hn⟩ := hb.cut ih ht
    exact ⟨_, .body hd hn⟩
  | @clause _ s s' ps _ _ _ hp hb _ ih =>
    rcases u with _ | ⟨c, u⟩
    · exact ⟨0, .here .ended⟩
    obtain ⟨rfl, ht⟩ := List.cons.inj hs
    rw [hp.eq] at ht
    rcases append_eq_append_cons ht.symm with ⟨b, hc⟩ | ⟨b, rfl, hc⟩
    · obtain ⟨ms, b, n, hd, hn, -⟩ : Unfinished .unbarred (depth ps) u := hp.unfinished hc
      exact ⟨_, .body hd (hn.mono fun _ _ => BreaksOff.obstacle)⟩
    · obtain ⟨ms, b', n, hd, hn⟩ := hb.cut ih hc
      exact ⟨_, .clause (hp.truncate_cons hc) hd hn⟩

/-- A beginning of a text that is a sequence does not reach beyond where the text is stuck. -/
theorem Stuck.exists_text_eq (hr : Stuck Obstacle lv n r) (h : Derives s ns r)
    (hu : Derives u ps []) (hs : s = u ++ t) : ∃ b, text ns = u ++ b := by
  rw [h.eq] at hs
  rcases List.append_eq_append_iff.1 hs with ⟨b, rfl, hb⟩ | ⟨b, hb, -⟩
  · -- What would reach beyond it is a sequence of its own, and stuck.
    obtain ⟨ms, -, hm⟩ := (Derives.truncate (t := t) (hb ▸ h)).split hu .nil
    obtain ⟨k, hk⟩ := hr.cut hb
    obtain rfl := hk.eq_nil_of_derives hm
    obtain rfl : b = [] := hm.eq
    exact ⟨[], by simp⟩
  · exact ⟨b, hb⟩

end Catena.Grammar
