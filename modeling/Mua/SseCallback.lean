import Mua.Sse

/-! # The decoder sees its callback only through its verdicts

Two callbacks over related user data that give the same verdicts lead the
decoder through the same states: what a feed returns is equal and the user data
stays related. With one callback and equal data this is the invariant rule.
-/

namespace Mua.Sse

variable {lim : SseLimits} {σ τ : Type}

/-- Callbacks that keep `R` and agree on every verdict. -/
def SameVerdict (R : σ → τ → Prop) (cb : SseEventCb σ) (cb' : SseEventCb τ) : Prop :=
  ∀ ud ud' event, R ud ud' →
    R (cb ud event).1 (cb' ud' event).1 ∧ (cb ud event).2 = (cb' ud' event).2

/-- Results that differ in their user data only, and those are related. -/
structure SameResult {α β : Type} (R : σ → τ → Prop) (r : α × σ × β) (r' : α × τ × β) : Prop where
  parser : r.1 = r'.1
  ud : R r.2.1 r'.2.1
  rest : r.2.2 = r'.2.2

variable {R : σ → τ → Prop} {cb : SseEventCb σ} {cb' : SseEventCb τ}

theorem dispatchEvent_same (hCb : SameVerdict R cb cb') (parser : SseParser lim) {ud : σ} {ud' : τ}
    (hR : R ud ud') : SameResult R (dispatchEvent cb parser ud) (dispatchEvent cb' parser ud') := by
  unfold dispatchEvent
  split
  · exact ⟨rfl, hR, rfl⟩
  · obtain ⟨hUd, hVerdict⟩ := hCb ud ud' (pendingEvent parser) hR
    generalize cb ud (pendingEvent parser) = r at hUd hVerdict
    generalize cb' ud' (pendingEvent parser) = r' at hUd hVerdict
    obtain ⟨u, v⟩ := r
    obtain ⟨u', v'⟩ := r'
    cases hVerdict
    cases v
    · exact ⟨rfl, hUd, rfl⟩
    · exact ⟨rfl, hUd, rfl⟩

theorem processLine_same (hCb : SameVerdict R cb cb') (parser : SseParser lim) {ud : σ} {ud' : τ}
    (hR : R ud ud') (line : Bytes) :
    SameResult R (processLine cb parser ud line) (processLine cb' parser ud' line) := by
  unfold processLine
  split
  · have hSame := dispatchEvent_same hCb parser hR
    generalize dispatchEvent cb parser ud = r at hSame
    generalize dispatchEvent cb' parser ud' = r' at hSame
    obtain ⟨p, u, v⟩ := r
    obtain ⟨p', u', v'⟩ := r'
    obtain ⟨hP, hUd, hV⟩ := hSame
    cases hP
    cases hV
    cases v
    · exact ⟨rfl, hUd, rfl⟩
    · exact ⟨rfl, hUd, rfl⟩
  · split
    · exact ⟨rfl, hR, rfl⟩
    · exact ⟨rfl, hR, rfl⟩

theorem finishLine_same (hCb : SameVerdict R cb cb') (parser : SseParser lim) {ud : σ} {ud' : τ}
    (hR : R ud ud') (line : Bytes) (term : Byte) (rest : Bytes) :
    SameResult R (finishLine cb parser ud line term rest)
      (finishLine cb' parser ud' line term rest) := by
  unfold finishLine
  have hSame := processLine_same hCb parser hR line
  generalize processLine cb parser ud line = r at hSame
  generalize processLine cb' parser ud' line = r' at hSame
  obtain ⟨p, u, e⟩ := r
  obtain ⟨p', u', e'⟩ := r'
  obtain ⟨hP, hUd, hE⟩ := hSame
  cases hP
  cases hE
  cases e
  · exact ⟨rfl, hUd, rfl⟩
  · exact ⟨rfl, hUd, rfl⟩

theorem scanLine_same (hCb : SameVerdict R cb cb') (parser : SseParser lim) {ud : σ} {ud' : τ}
    (hR : R ud ud') (span : Bytes) :
    SameResult R (scanLine cb parser ud span) (scanLine cb' parser ud' span) := by
  unfold scanLine
  split
  · split
    · exact ⟨rfl, hR, rfl⟩
    · exact ⟨rfl, hR, rfl⟩
  · dsimp only
    split
    · split
      · exact ⟨rfl, hR, rfl⟩
      · exact finishLine_same hCb _ hR _ _ _
    · split
      · exact ⟨rfl, hR, rfl⟩
      · exact finishLine_same hCb _ hR _ _ _

theorem feedLoop_same (hCb : SameVerdict R cb cb') (parser : SseParser lim) {ud : σ} {ud' : τ}
    (hR : R ud ud') (bytes : Bytes) :
    SameResult R (feedLoop cb parser ud bytes) (feedLoop cb' parser ud' bytes) := by
  fun_induction feedLoop cb parser ud bytes generalizing ud' with
  | case1 parser ud =>
    rw [feedLoop]
    exact ⟨rfl, hR, rfl⟩
  | case2 parser ud b rest hState parser' _ err hStep =>
    rw [feedLoop, dif_pos hState]
    split
    · rename_i h
      cases hStep.symm.trans h
      exact ⟨rfl, hR, rfl⟩
    · rename_i h
      cases hStep.symm.trans h
  | case3 parser ud b rest hState parser' bytes' hStep ih =>
    rw [feedLoop.eq_def cb']
    dsimp only
    rw [dif_pos hState]
    split
    · rename_i h
      cases hStep.symm.trans h
    · rename_i h
      cases hStep.symm.trans h
      exact ih hR
  | case4 parser ud b rest hState parser' ud₁ _ err hStep =>
    have hSame := scanLine_same hCb parser hR (b :: rest)
    rw [hStep] at hSame
    rw [feedLoop, dif_neg hState]
    split
    · rename_i h
      rw [h] at hSame
      obtain ⟨hP, hUd, hE⟩ := hSame
      cases hP
      cases hE
      exact ⟨rfl, hUd, rfl⟩
    · rename_i h
      rw [h] at hSame
      cases hSame.rest
  | case5 parser ud b rest hState parser' ud₁ bytes' hStep ih =>
    have hSame := scanLine_same hCb parser hR (b :: rest)
    rw [hStep] at hSame
    rw [feedLoop.eq_def cb']
    dsimp only
    rw [dif_neg hState]
    split
    · rename_i h
      rw [h] at hSame
      cases hSame.rest
    · rename_i h
      rw [h] at hSame
      obtain ⟨hP, hUd, hE⟩ := hSame
      cases hP
      cases hE
      exact ih hUd

theorem sseParserFeed_same (hCb : SameVerdict R cb cb') (parser : SseParser lim) {ud : σ} {ud' : τ}
    (hR : R ud ud') (bytes : Bytes) :
    SameResult R (sseParserFeed cb parser ud bytes) (sseParserFeed cb' parser ud' bytes) := by
  unfold sseParserFeed
  split
  · exact ⟨rfl, hR, rfl⟩
  · split
    · split
      · exact ⟨rfl, hR, rfl⟩
      · dsimp only
        split
        · exact feedLoop_same hCb _ hR _
        · exact feedLoop_same hCb _ hR _
    · exact feedLoop_same hCb _ hR _

theorem sseParserFeed_invariant {P : σ → Prop} (cb : SseEventCb σ)
    (hCb : ∀ ud event, P ud → P (cb ud event).1) (parser : SseParser lim) {ud : σ} (hP : P ud)
    (bytes : Bytes) : P (sseParserFeed cb parser ud bytes).2.1 := by
  have hSame : SameVerdict (fun u u' => u = u' ∧ P u) cb cb := by
    rintro u u' event ⟨rfl, hu⟩
    exact ⟨⟨rfl, hCb u event hu⟩, rfl⟩
  exact (sseParserFeed_same hSame parser ⟨rfl, hP⟩ bytes).ud.2

end Mua.Sse
