import Mathlib.Algebra.BigOperators.Group.List.Lemmas
import Mathlib.Algebra.Order.BigOperators.Group.List
import BitLSM.Builder.EqualityPolicy

/-!
The balance of a dictionary's bins.

Values are taken by falling count, and each one goes to the bin with the
fewest rows so far. The last value a bin gets is its lightest, and before it
came the bin had no more rows than any other bin. So a bin has at most the
rows of its lightest value more than any other bin.
-/

namespace BitLSM

open Wire

namespace EqualityBinning

/-- The rows of a value. -/
def weight (b : EqualityAttrBuf) (id : ℕ) : ℕ := (b.countById.getD id 0).toNat

/-- The rows of the values `done` that are in bin `j`. -/
def load (b : EqualityAttrBuf) (s : EqualityBinning) (done : List ℕ) (j : ℕ) : ℕ :=
  ((done.filter fun x => decide (s.binById.getD x 0 = j)).map (weight b)).sum

/-- The queue knows the rows of each bin, and no bin is further above another
one than by any of its values. -/
structure Balanced (b : EqualityAttrBuf) (bins : ℕ) (s : EqualityBinning) (done : List ℕ) :
    Prop where
  queue : ∀ e ∈ s.minBinPq, e.1 = load b s done e.2
  balance : ∀ x ∈ done, ∀ j < bins,
    load b s done (s.binById.getD x 0) ≤ load b s done j + weight b x

section Step

variable {b : EqualityAttrBuf} {bins : ℕ} {s s' : EqualityBinning} {done : List ℕ} {id : ℕ}

theorem pairBefore_iff (x y : ℕ × ℕ) : pairBefore x y = true ↔ toLex x < toLex y := by
  rw [pairBefore, decide_eq_true_eq, Prod.Lex.toLex_lt_toLex]

/-- What an iteration does: the value goes to a bin with the fewest rows. -/
theorem step_eq_some (h : step b s id = some s') :
    ∃ cnt bin rest, s.minBinPq.Perm ((cnt, bin) :: rest) ∧ (∀ e ∈ rest, cnt ≤ e.1) ∧
      s'.binById = s.binById.set id bin ∧
      s'.minBinPq = ((cnt + weight b id) % 2 ^ 32, bin) :: rest := by
  obtain ⟨⟨⟨cnt, bin⟩, rest⟩, htop, h⟩ := Option.bind_eq_some_iff.1 h
  obtain rfl := Option.some.inj h
  refine ⟨cnt, bin, rest, takeTop_perm htop, fun e he => ?_, rfl, rfl⟩
  have hle := takeTop_le (fun x _ y _ => pairBefore_iff x y) htop e he
  rw [Prod.Lex.toLex_le_toLex] at hle
  rcases hle with hlt | ⟨heq, -⟩
  · exact hlt.le
  · exact heq.le

theorem getD_binById {bin : ℕ} (hset : s'.binById = s.binById.set id bin)
    (hid : id < s.binById.length) (x : ℕ) :
    s'.binById.getD x 0 = if x = id then bin else s.binById.getD x 0 := by
  rw [hset, List.getD_eq_getElem?_getD, List.getElem?_set, List.getD_eq_getElem?_getD]
  by_cases hx : x = id
  · simp [hx, hid]
  · simp [hx, Ne.symm hx]

/-- A value adds its rows to its bin. -/
theorem load_concat {bin : ℕ} (hset : s'.binById = s.binById.set id bin)
    (hid : id < s.binById.length) (hnew : id ∉ done) (j : ℕ) :
    load b s' (done ++ [id]) j = load b s done j + if j = bin then weight b id else 0 := by
  have hbin := getD_binById hset hid
  have hold : done.filter (fun x => decide (s'.binById.getD x 0 = j)) =
      done.filter fun x => decide (s.binById.getD x 0 = j) := by
    refine List.filter_congr fun x hx => ?_
    rw [hbin, if_neg (show x ≠ id from fun heq => hnew (heq ▸ hx))]
  rw [load, List.filter_append, List.map_append, List.sum_append, hold, ← load]
  by_cases hj : j = bin
  · rw [List.filter_cons_of_pos (by rw [hbin, if_pos rfl]; exact decide_eq_true hj.symm), if_pos hj]
    simp
  · rw [List.filter_cons_of_neg (by
      rw [hbin, if_pos rfl, decide_eq_true_eq]
      exact Ne.symm hj), if_neg hj]
    simp

theorem load_le (b : EqualityAttrBuf) (s : EqualityBinning) (done : List ℕ) (j : ℕ) :
    load b s done j ≤ (done.map (weight b)).sum :=
  (List.filter_sublist.map _).sum_le_sum fun _ _ => Nat.zero_le _

/-- An iteration keeps the balance, for a value that is no heavier than those before. -/
theorem Balanced.step (h : Balanced b bins s done) (hok : s.Ok b bins done)
    (hid : id < b.valueById.length) (hnew : id ∉ done)
    (hlight : ∀ x ∈ done, weight b id ≤ weight b x)
    (htotal : ((done ++ [id]).map (weight b)).sum < 2 ^ 32)
    (hstep : EqualityBinning.step b s id = some s') : Balanced b bins s' (done ++ [id]) := by
  obtain ⟨cnt, bin, rest, hperm, hleast, hset, hqueue⟩ := step_eq_some hstep
  have hid : id < s.binById.length := by rwa [hok.length]
  have hload := @load_concat b s s' done id bin hset hid hnew
  have hcnt : cnt = load b s done bin := h.queue (cnt, bin) (hperm.mem_iff.2 (by simp))
  have hnodup : (bin :: rest.map Prod.snd).Nodup :=
    ((hperm.map Prod.snd).symm.trans hok.queue).nodup_iff.2 List.nodup_range
  have hmin : ∀ j < bins, load b s done bin ≤ load b s done j := by
    intro j hj
    obtain ⟨e, he, rfl⟩ := List.mem_map.1 (hok.queue.mem_iff.2 (List.mem_range.2 hj))
    rw [← hcnt, ← h.queue e he]
    rcases List.mem_cons.1 (hperm.mem_iff.1 he) with rfl | hrest
    · exact le_rfl
    · exact hleast e hrest
  constructor
  · intro e he
    rw [hqueue] at he
    rcases List.mem_cons.1 he with rfl | hrest
    · have hle := load_le b s done bin
      rw [List.map_append, List.sum_append, List.map_singleton, List.sum_singleton] at htotal
      rw [hload, if_pos rfl, hcnt, Nat.mod_eq_of_lt (by omega)]
    · have hne : e.2 ≠ bin := by
        intro heq
        exact (List.nodup_cons.1 hnodup).1 (heq ▸ List.mem_map_of_mem (f := Prod.snd) hrest)
      rw [hload, if_neg hne, Nat.add_zero]
      exact h.queue e (hperm.mem_iff.2 (List.mem_cons_of_mem _ hrest))
  · intro x hx j hj
    have hfewest := hmin j hj
    rw [getD_binById hset hid, hload, hload]
    rcases List.mem_append.1 hx with hold | hlast
    · have hxid : x ≠ id := fun heq => hnew (heq ▸ hold)
      have hbalance := h.balance x hold j hj
      have hxlight := hlight x hold
      rw [if_neg hxid]
      split
      · next heq =>
          rw [heq]
          omega
      · omega
    · rw [if_pos (List.mem_singleton.1 hlast), if_pos rfl, List.mem_singleton.1 hlast]
      omega

theorem Balanced.steps (hbins : 1 ≤ bins) {ids : List ℕ} (hnodup : ids.Nodup)
    (hlt : ∀ id ∈ ids, id < b.valueById.length)
    (hfalling : ids.Pairwise fun x y => weight b y ≤ weight b x)
    (htotal : (ids.map (weight b)).sum < 2 ^ 32) :
    ∃ s, ids.foldlM (EqualityBinning.step b)
        { binning := []
          binById := List.replicate b.valueById.length 0
          minBinPq := (List.range bins).map fun j => (0, j) } = some s ∧
      s.Ok b bins ids ∧ Balanced b bins s ids := by
  induction ids using List.reverseRecOn with
  | nil =>
      refine ⟨_, rfl, start_ok b bins, fun e he => ?_, by simp⟩
      obtain ⟨j, -, rfl⟩ := List.mem_map.1 he
      rfl
  | append_singleton done id ih =>
      rw [List.nodup_append] at hnodup
      rw [List.pairwise_append] at hfalling
      have hbefore : (done.map (weight b)).sum < 2 ^ 32 := by
        rw [List.map_append, List.sum_append] at htotal
        omega
      obtain ⟨s, hfold, hok, hbalanced⟩ := ih hnodup.1
        (fun x hx => hlt x (List.mem_append_left _ hx)) hfalling.1 hbefore
      have hid := hlt id (by simp)
      have hnew : id ∉ done := fun hmem => hnodup.2.2 id hmem id (by simp) rfl
      obtain ⟨s', hstep, hok'⟩ := hok.step hbins hid hnew
      refine ⟨s', ?_, hok', hbalanced.step hok hid hnew
        (fun x hx => hfalling.2.2 x hx id (by simp)) htotal hstep⟩
      rw [List.foldlM_append, hfold]
      simpa using hstep

end Step

end EqualityBinning

/-! ### Rows of a bin -/

section Rows

variable {hash : Bytes → UInt64} {vs : List Bytes} {b : EqualityAttrBuf} {bins : ℕ}

theorem perm_dedup (vs : List Bytes) : (distinctValues vs).Perm vs.dedup :=
  (List.perm_ext_iff_of_nodup (nodup_distinctValues vs) vs.nodup_dedup).2 fun v => by
    rw [mem_distinctValues, List.mem_dedup]

/-- The weight of an id is the number of rows with its value. -/
theorem EqualityAttrBuf.Interned.weight_eq (h : b.Interned hash vs) (hrows : vs.length < 2 ^ 32)
    {id : ℕ} (hid : id < b.valueById.length) :
    EqualityBinning.weight b id = vs.count (b.valueOf id) := by
  rw [h.length_values] at hid
  have hget := List.getElem?_eq_getElem hid
  have hle := List.count_le_length (a := (distinctValues vs)[id]) (l := vs)
  rw [EqualityBinning.weight, h.counts, h.valueOf_eq hget, List.getD_eq_getElem?_getD,
    List.getElem?_map, hget, Option.map_some, Option.getD_some, UInt32.toNat_ofNat',
    Nat.mod_eq_of_lt (by omega)]

/-- Weights of ids by their value, as rows. -/
theorem EqualityAttrBuf.Interned.sum_weight (h : b.Interned hash vs) (hrows : vs.length < 2 ^ 32)
    {ids : List ℕ} (hids : ids.Perm (List.range b.valueById.length)) (p : Bytes → Bool) :
    ((ids.filter fun id => p (b.valueOf id)).map (EqualityBinning.weight b)).sum =
      vs.countP p := by
  rw [((hids.filter _).map _).sum_eq, ← List.sum_map_count_dedup_filter_eq_countP,
    ← (((perm_dedup vs).filter p).map _).sum_eq, ← h.map_valueOf, List.filter_map, List.map_map]
  congr 1
  refine List.map_congr_left fun id hid => ?_
  rw [h.weight_eq hrows (List.mem_range.1 (List.mem_of_mem_filter hid))]
  exact List.countP_congr fun x _ => by simp only [beq_iff_eq]

theorem count_add_count_le {p : Bytes → Bool} {v w : Bytes} (hvw : v ≠ w) (hv : p v = true)
    (hw : p w = true) (l : List Bytes) : l.count v + l.count w ≤ l.countP p := by
  induction l with
  | nil => simp
  | cons x l ih =>
      rw [List.count_cons, List.count_cons, List.countP_cons]
      by_cases hxv : x = v
      · subst hxv
        simp [hvw, hv]
        omega
      · by_cases hxw : x = w
        · subst hxw
          simp [hxv, hw]
          omega
        · simp [hxv, hxw]
          omega

/-- The loop as a whole: its dictionary, with the rows of each bin. -/
theorem setEqualityBinningPolicy_balanced (h : b.Interned hash vs) (std : StdSort)
    (hbins : 1 ≤ bins) (hrows : vs.length < 2 ^ 32) :
    ∃ dict binById, setEqualityBinningPolicy std bins b = some (dict, binById) ∧
      EqualityDict vs bins dict ∧ (∀ k, b.rowBin binById k = (vs.map (dictBin dict))[k]?) ∧
      ∀ v ∈ vs, ∀ j < bins, (vs.countP fun w => decide (dictBin dict w = dictBin dict v)) ≤
        (vs.countP fun w => decide (dictBin dict w = j)) + vs.count v := by
  obtain ⟨dict, binById, hpolicy, hdict, hrow⟩ := setEqualityBinningPolicy_spec h std hbins hrows
  refine ⟨dict, binById, hpolicy, hdict, hrow, ?_⟩
  have hperm := std.perm (fun x y => decide (b.countById.getD y 0 < b.countById.getD x 0))
    (List.range b.valueById.length)
  have hlt : ∀ id ∈ std.run (fun x y => decide (b.countById.getD y 0 < b.countById.getD x 0))
      (List.range b.valueById.length), id < b.valueById.length := fun id hid =>
    List.mem_range.1 (hperm.mem_iff.1 hid)
  have hfalling := std.sorted (fun x y => decide (b.countById.getD y 0 < b.countById.getD x 0))
    (List.range b.valueById.length)
    (strictWeak_key (f := fun x => OrderDual.toDual (EqualityBinning.weight b x)) fun x y => by
      rw [decide_eq_true_eq, OrderDual.toDual_lt_toDual, UInt32.lt_iff_toNat_lt,
        EqualityBinning.weight, EqualityBinning.weight])
  rw [setEqualityBinningPolicy] at hpolicy
  generalize std.run (fun x y => decide (b.countById.getD y 0 < b.countById.getD x 0))
    (List.range b.valueById.length) = ids at hperm hlt hfalling hpolicy
  have htotal := h.sum_weight hrows hperm fun _ => true
  rw [List.filter_true, List.countP_true] at htotal
  obtain ⟨s, hfold, hok, hbalanced⟩ := EqualityBinning.Balanced.steps hbins
    (hperm.nodup_iff.2 List.nodup_range) hlt
    (hfalling.imp fun {x y} hxy => by
      rw [decide_eq_false_iff_not, UInt32.not_lt, UInt32.le_iff_toNat_le] at hxy
      exact hxy)
    (by rw [htotal]; exact hrows)
  obtain ⟨rfl, rfl⟩ : std.run entryBefore s.binning = dict ∧ s.binById = binById := by
    simp only [hfold] at hpolicy
    exact Prod.mk.inj (Option.some.inj hpolicy)
  -- the dictionary has the bin of each id under its value
  have hbin : ∀ id ∈ ids, dictBin (std.run entryBefore s.binning) (b.valueOf id) =
      s.binById.getD id 0 := by
    intro id hid
    refine hdict.dictBin_eq ((std.perm entryBefore s.binning).mem_iff.2 ?_)
    rw [hok.binning]
    exact List.mem_map.2 ⟨id, hid, rfl⟩
  have hload (j : ℕ) : EqualityBinning.load b s ids j =
      vs.countP fun w => decide (dictBin (std.run entryBefore s.binning) w = j) := by
    rw [← h.sum_weight hrows hperm, EqualityBinning.load]
    congr 2
    exact List.filter_congr fun id hid => by rw [hbin id hid]
  intro v hv j hj
  obtain ⟨id, hid, rfl⟩ : ∃ id ∈ ids, b.valueOf id = v := by
    rw [← mem_distinctValues, ← h.map_valueOf] at hv
    obtain ⟨id, hid, rfl⟩ := List.mem_map.1 hv
    exact ⟨id, hperm.mem_iff.2 hid, rfl⟩
  have hbalance := hbalanced.balance id hid j hj
  rwa [hload, hload, h.weight_eq hrows (hlt id hid), ← hbin id hid] at hbalance

/-- Equality binning from the pushed values on: a dictionary with one entry for
each value, balanced bins, and none of them empty unless there are fewer
values than bins. -/
theorem equality_binning_balanced (hash : Bytes → UInt64) (std : StdSort)
    (hbytes : (distinctValues vs).flatten.length < 2 ^ 32) (hrows : vs.length < 2 ^ 32)
    (hbins : 1 ≤ bins) :
    ∃ b dict binById, EqualityAttrBuf.internAll hash vs = some b ∧
      setEqualityBinningPolicy std bins b = some (dict, binById) ∧
      (dict.map Prod.fst).Pairwise (· < ·) ∧ (∀ v, v ∈ dict.map Prod.fst ↔ v ∈ vs) ∧
      (∀ e ∈ dict, e.2 < bins) ∧ (∀ k, b.rowBin binById k = (vs.map (dictBin dict))[k]?) ∧
      (∀ v ∈ vs, ∀ j < bins, (vs.countP fun w => decide (dictBin dict w = dictBin dict v)) ≤
        (vs.countP fun w => decide (dictBin dict w = j)) + vs.count v) ∧
      (bins ≤ vs.toFinset.card → ∀ j < bins, ∃ v ∈ vs, dictBin dict v = j) := by
  obtain ⟨b, hb, h⟩ := EqualityAttrBuf.internAll_interned hash hbytes
  obtain ⟨dict, binById, hpolicy, hdict, hrow, hbalance⟩ :=
    setEqualityBinningPolicy_balanced h std hbins hrows
  refine ⟨b, dict, binById, hb, hpolicy, hdict.ordered, hdict.mem, hdict.lt_bins, hrow, hbalance,
    fun hmany j hj => ?_⟩
  by_contra hempty
  have hnone : (vs.countP fun w => decide (dictBin dict w = j)) = 0 :=
    List.countP_eq_zero.2 fun v hv hbin => hempty ⟨v, hv, of_decide_eq_true hbin⟩
  -- two values share a bin, as one bin has none
  have hmaps : ∀ v ∈ vs.toFinset, dictBin dict v ∈ (Finset.range bins).erase j := by
    intro v hv
    have hv := List.mem_toFinset.1 hv
    obtain ⟨e, he, rfl⟩ := List.mem_map.1 ((hdict.mem v).2 hv)
    rw [Finset.mem_erase, Finset.mem_range]
    exact ⟨fun heq => hempty ⟨e.1, hv, heq⟩, by rw [hdict.dictBin_eq he]; exact hdict.lt_bins e he⟩
  have hcard : ((Finset.range bins).erase j).card < vs.toFinset.card := by
    rw [Finset.card_erase_of_mem (Finset.mem_range.2 hj), Finset.card_range]
    omega
  obtain ⟨v, hv, w, hw, hvw, hsame⟩ :=
    Finset.exists_ne_map_eq_of_card_lt_of_maps_to hcard hmaps
  have hboth := count_add_count_le (p := fun u => decide (dictBin dict u = dictBin dict v)) hvw
    (decide_eq_true rfl) (decide_eq_true hsame.symm) vs
  have hle := hbalance v (List.mem_toFinset.1 hv) j hj
  have hpos : 0 < vs.count w := List.count_pos_iff.2 (List.mem_toFinset.1 hw)
  omega

end Rows

theorem equality_binning_balanced_twoBins : ∃ b dict binById,
    EqualityAttrBuf.internAll (fun _ => 0) [[7], [8], [7]] = some b ∧
    setEqualityBinningPolicy .insertion 2 b = some (dict, binById) ∧
    (dict.map Prod.fst).Pairwise (· < ·) ∧ ∃ v ∈ [[7], [8], [7]], dictBin dict v = 1 := by
  obtain ⟨b, dict, binById, hb, hpolicy, hordered, -, -, -, -, hfull⟩ :=
    @equality_binning_balanced [[7], [8], [7]] 2 (fun _ => 0) .insertion (by decide) (by decide)
      (by decide)
  exact ⟨b, dict, binById, hb, hpolicy, hordered, hfull (by decide) 1 (by decide)⟩

/-- A value that occurs `2 ^ 32` times counts as lighter than two single ones,
and is put on top of one of them. -/
theorem equality_binning_unbalanced : ∃ vs b dict binById,
    (distinctValues vs).flatten.length < 2 ^ 32 ∧
    EqualityAttrBuf.internAll (fun _ => 0) vs = some b ∧
    setEqualityBinningPolicy .insertion 2 b = some (dict, binById) ∧
    dict = [([0], 0), ([1], 0), ([2], 1)] ∧ vs.count [1] = 1 ∧
    ¬(vs.countP fun w => decide (dictBin dict w = 0)) ≤
      (vs.countP fun w => decide (dictBin dict w = 1)) + vs.count [1] := by
  obtain ⟨n, hn⟩ : ∃ n, n + 1 = 2 ^ 32 := ⟨2 ^ 32 - 1, by decide⟩
  have hdistinct : distinctValues (List.replicate (n + 1) [0] ++ [[1]] ++ [[2]]) =
      [[0], [1], [2]] := by
    rw [distinctValues_concat, distinctValues_concat, EqualityAttrBuf.distinctValues_replicate]
    rfl
  have hbytes : (distinctValues (List.replicate (n + 1) [0] ++ [[1]] ++ [[2]])).flatten.length <
      2 ^ 32 := by
    rw [hdistinct]
    decide
  obtain ⟨b, hb, h⟩ := EqualityAttrBuf.internAll_interned (fun _ => 0) hbytes
  have hzero : (List.replicate (n + 1) [0] ++ [[1]] ++ [[2]] : List Bytes).count [0] = n + 1 := by
    simp
  have hone : (List.replicate (n + 1) [0] ++ [[1]] ++ [[2]] : List Bytes).count [1] = 1 := by
    simp [List.count_replicate]
  have htwo : (List.replicate (n + 1) [0] ++ [[1]] ++ [[2]] : List Bytes).count [2] = 1 := by
    simp [List.count_replicate]
  have hcounts : b.countById = [0, 1, 1] := by
    rw [h.counts, hdistinct, List.map_cons, List.map_cons, List.map_singleton, hzero, hone, htwo,
      hn]
    decide
  have hlength : b.valueById.length = 3 := by
    rw [h.length_values, hdistinct]
    rfl
  have hvalue (i : ℕ) (v : Bytes) (hv : [[0], [1], [2]][i]? = some v) : b.valueOf i = v :=
    h.valueOf_eq (by rw [hdistinct]; exact hv)
  have hsorted : StdSort.insertion.run (fun x y =>
      decide (([0, 1, 1] : List UInt32).getD y 0 < [0, 1, 1].getD x 0)) (List.range 3) =
      [1, 2, 0] := by
    decide
  have hpolicy : setEqualityBinningPolicy .insertion 2 b =
      some ([([0], 0), ([1], 0), ([2], 1)], [0, 0, 1]) := by
    rw [setEqualityBinningPolicy, hcounts, hlength, hsorted]
    simp [EqualityBinning.step, takeTop, pairBefore, hcounts, hvalue 0 [0] rfl, hvalue 1 [1] rfl,
      hvalue 2 [2] rfl, List.range_succ]
    decide
  refine ⟨_, b, _, _, hbytes, hb, hpolicy, rfl, hone, ?_⟩
  have hheavy : (List.replicate (n + 1) [0] ++ [[1]] ++ [[2]] : List Bytes).countP
      (fun w => decide (dictBin [([0], 0), ([1], 0), ([2], 1)] w = 0)) = n + 2 := by
    simp [List.countP_append, List.countP_replicate, dictBin]
  have hlight : (List.replicate (n + 1) [0] ++ [[1]] ++ [[2]] : List Bytes).countP
      (fun w => decide (dictBin [([0], 0), ([1], 0), ([2], 1)] w = 1)) = 1 := by
    simp [List.countP_append, List.countP_replicate, dictBin]
  rw [hheavy, hlight, hone]
  omega

end BitLSM
