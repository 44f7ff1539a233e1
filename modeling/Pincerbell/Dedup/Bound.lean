import Pincerbell.Dedup.Invariant
import Pincerbell.Dedup.Window

/-!
# The length of the log

`maxEntries` bounds the map, and nothing bounds the log directly. What bounds it is time. The front
of the log is young after every recording, and when no clock value is read more than `delta` before
an earlier one, everything behind the front is at most `delta` older. All the entries of a key then
lie in a window of less than three TTLs, a TTL apart.

* `Reordered` — the clock values are out of order by at most `delta`.
* `mem_window` — the window that a recording leaves.
* `length_occurrences_le` — a key has at most three entries in it.
* `length_order_le` — the bound, and the exact length when the clock does not go back.
-/

namespace Pincerbell.DedupCache

open Log

variable {c : DedupCache} {rs : List (Instant × Key)} {now : Instant} {key : Key} {inner : Inner}
  {delta : Duration}

/-- Each recording is at least as late as every earlier one, less `delta`. -/
def Reordered (delta : Duration) (rs : List (Instant × Key)) : Prop :=
  rs.Pairwise fun r r' => r.1 ≤ r'.1 + delta

instance (rs : List (Instant × Key)) : Decidable (Reordered delta rs) := by
  unfold Reordered
  infer_instance

/-- A recording leaves the end of what the first loop left, and possibly itself behind it. -/
theorem order_recordAt_suffix (httl : 0 < c.ttl) (now : Instant) (key : Key) (inner : Inner) :
    (c.recordAt now key inner).order <:+
      (c.expire now inner.order inner.seen).order ++ [(now, key)] ∨
    (c.recordAt now key inner).order = (c.expire now inner.order inner.seen).order := by
  rw [recordAt, if_neg (Nat.ne_of_gt httl)]
  dsimp only
  split
  next => exact Or.inr rfl
  next =>
    obtain ⟨popped, rest, horder, heq⟩ := c.evict_pops
      ((c.expire now inner.order inner.seen).order ++ [(now, key)])
      ((c.expire now inner.order inner.seen).seen.insert key now)
    left
    rw [heq, horder]
    exact List.suffix_append popped rest

/-- What a recording leaves listed was left by the first loop, or is the recording itself. -/
theorem mem_order_recordAt (httl : 0 < c.ttl) {r : Instant × Key}
    (hr : r ∈ (c.recordAt now key inner).order) :
    r ∈ (c.expire now inner.order inner.seen).order ∨ r = (now, key) := by
  rcases order_recordAt_suffix httl now key inner with hsuffix | heq
  · simpa using hsuffix.subset hr
  · exact Or.inl (heq ▸ hr)

/-- The first loop leaves the end of the log. -/
theorem expire_suffix (now : Instant) (inner : Inner) :
    (c.expire now inner.order inner.seen).order <:+ inner.order := by
  obtain ⟨popped, rest, horder, heq, -⟩ := c.expire_pops now inner.order inner.seen
  rw [heq, horder]
  exact List.suffix_append popped rest

/-- The log lists recordings of the run, in their order. -/
theorem order_sublist (httl : 0 < c.ttl) (rs : List (Instant × Key)) :
    (c.after rs).order.Sublist rs := by
  induction rs using List.reverseRecOn with
  | nil => exact List.Sublist.refl []
  | append_singleton rs r ih =>
    rw [after_concat]
    have hexpire := (c.expire_suffix r.1 (c.after rs)).sublist.trans ih
    rcases order_recordAt_suffix httl r.1 r.2 (c.after rs) with hsuffix | heq
    · exact hsuffix.sublist.trans (hexpire.append (List.Sublist.refl [r]))
    · rw [heq]
      exact hexpire.trans (List.sublist_append_left rs [r])

/-! ### The window of a recording -/

/-- What the first loop leaves is at most `delta` older than its front, which is young. -/
theorem lt_of_mem_expire (httl : 0 < c.ttl) (h : Reordered delta rs) {r : Instant × Key}
    (hr : r ∈ (c.expire now (c.after rs).order (c.after rs).seen).order) :
    now < r.1 + c.ttl + delta := by
  obtain ⟨popped, rest, horder, heq, hyoung⟩ :=
    c.expire_pops now (c.after rs).order (c.after rs).seen
  rw [heq] at hr
  have hsub : (popped ++ rest).Sublist rs := horder ▸ order_sublist httl rs
  have hrest : Reordered delta rest := h.sublist ((List.sublist_append_right _ _).trans hsub)
  match rest, hr, hrest, hyoung with
  | front :: rest, hr, hrest, hyoung =>
    have hfront : now < front.1 + c.ttl := lt_add_of_tsub_lt_left (hyoung front rfl)
    rcases List.mem_cons.mp hr with rfl | hr
    · exact Nat.lt_of_lt_of_le hfront (Nat.le_add_right _ _)
    · have hle : front.1 ≤ r.1 + delta := (List.pairwise_cons.mp hrest).1 r hr
      calc now < front.1 + c.ttl := hfront
        _ ≤ r.1 + delta + c.ttl := Nat.add_le_add_right hle _
        _ = r.1 + c.ttl + delta := Nat.add_right_comm _ _ _

/-- The window of a recording: what it leaves listed is less than a TTL and a delay older, and at
most a delay younger. -/
theorem mem_window (httl : 0 < c.ttl) {r : Instant × Key} (h : Reordered delta (rs ++ [r]))
    {r' : Instant × Key} (hr' : r' ∈ (c.after (rs ++ [r])).order) :
    r.1 < r'.1 + c.ttl + delta ∧ r'.1 ≤ r.1 + delta := by
  obtain ⟨hrs, -, hlast⟩ := List.pairwise_append.mp h
  rw [after_concat] at hr'
  rcases mem_order_recordAt httl hr' with hr' | rfl
  · refine ⟨lt_of_mem_expire httl hrs hr', ?_⟩
    have hmem : r' ∈ rs := (order_sublist httl rs).subset ((expire_suffix _ _).subset hr')
    exact hlast r' hmem r (List.mem_singleton.mpr rfl)
  · -- the recording itself
    refine ⟨?_, Nat.le_add_right _ _⟩
    rw [Nat.add_assoc]
    exact Nat.lt_add_of_pos_right (Nat.add_pos_left httl delta)

/-- Numbers at least `d` apart, in a window of less than three times `d`, are at most three. -/
theorem length_le_three_of_window {d delta : ℕ} {l : List ℕ} (now : ℕ) (h : Spaced d l)
    (hdelta : delta < d) (hlo : ∀ t ∈ l, now < t + d + delta) (hhi : ∀ t ∈ l, t ≤ now + delta) :
    l.length ≤ 3 := by
  cases l with
  | nil => exact Nat.zero_le 3
  | cons t l =>
    have hspan : t + l.length * d ≤ now + delta := h.add_mul_le hhi
    have hfirst : now < t + d + delta := hlo t List.mem_cons_self
    by_contra hlong
    have hthree : 3 * d ≤ l.length * d := by
      apply Nat.mul_le_mul_right
      rw [List.length_cons] at hlong
      omega
    omega

/-- After a recording no key has more than three entries. -/
theorem length_occurrences_le (httl : 0 < c.ttl) (hdelta : delta < c.ttl) {r : Instant × Key}
    (h : Reordered delta (rs ++ [r])) (k : Key) :
    (occurrences (c.after (rs ++ [r])).order k).length ≤ 3 := by
  refine length_le_three_of_window r.1 ((agrees_after httl _).spaced k) hdelta ?_ ?_
  · intro t ht
    exact (mem_window httl h (mem_occurrences.mp ht)).1
  · intro t ht
    exact (mem_window httl h (mem_occurrences.mp ht)).2

/-- The log is at most three times as long as the map. -/
theorem length_order_le_seen (httl : 0 < c.ttl) (hdelta : delta < c.ttl)
    (h : Reordered delta rs) : (c.after rs).order.length ≤ 3 * (c.after rs).seen.len := by
  induction rs using List.reverseRecOn with
  | nil => exact Nat.zero_le _
  | append_singleton rs r =>
    have hkeys : ∀ r' ∈ (c.after (rs ++ [r])).order,
        r'.2 ∈ (c.after (rs ++ [r])).seen.keys := by
      intro r' hr'
      obtain ⟨t, hl⟩ := (agrees_after httl (rs ++ [r])).mem_iff.mp ⟨r'.1, hr'⟩
      exact AList.lookup_isSome.mp (by rw [hl]; rfl)
    have hle := length_le_mul hkeys (length_occurrences_le httl hdelta h)
    simpa [HashMap.len, AList.keys, List.keys] using hle

/-- After any recordings whose clock values are out of order by less than a TTL, the log has at most
three entries for each place in the cache. If the clock does not go back, the log lists each key of
the map once, with the time of the map, and nothing else. -/
theorem length_order_le (httl : 0 < c.ttl) (hdelta : delta < c.ttl)
    (h : Reordered delta rs) :
    (∀ pre, pre <+: rs → (c.after pre).order.length ≤ 3 * c.maxEntries) ∧
    (Sorted rs → ∀ pre, pre <+: rs →
      ((c.after pre).order.map Prod.snd).Nodup ∧
      (∀ k t, (t, k) ∈ (c.after pre).order ↔ (c.after pre).seen.lookup k = some t) ∧
      (c.after pre).order.length = (c.after pre).seen.len ∧
      (c.after pre).seen.len ≤ c.maxEntries) := by
  constructor
  · intro pre hpre
    calc (c.after pre).order.length ≤ 3 * (c.after pre).seen.len :=
          length_order_le_seen httl hdelta (h.sublist hpre.sublist)
      _ ≤ 3 * c.maxEntries := Nat.mul_le_mul_left 3 (len_seen_after_le httl pre)
  · intro hsorted pre hpre
    have hwindow := window_of_sorted (Nat.ne_of_gt httl) (hsorted.sublist hpre.sublist)
    exact ⟨hwindow.consistent.nodup, fun k t => hwindow.consistent.lookup_iff.symm,
      hwindow.consistent.len.symm, len_seen_after_le httl pre⟩

/-- With a TTL of five and a delay of four, a young front entry hides a stale one of another key. -/
theorem length_order_le_hidden :
    let c : DedupCache := ⟨5, 2⟩
    let rs : List (Instant × Key) := [(8, ("e", "a", "k")), (4, ("f", "a", "k")),
      (9, ("f", "a", "k")), (12, ("g", "a", "k"))]
    0 < c.ttl ∧ Reordered 4 rs ∧ (c.after rs).order.length ≤ 3 * c.maxEntries := by
  intro c rs
  have hreordered : Reordered 4 rs := by decide
  exact ⟨by decide, hreordered,
    (length_order_le (c := c) (by decide) (by decide) hreordered).1 rs (List.prefix_refl rs)⟩

end Pincerbell.DedupCache
