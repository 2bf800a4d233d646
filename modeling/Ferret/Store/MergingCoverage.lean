import Ferret.Store.Merging

/-!
# Merging keeps the index sound

A merged segment answers for the live documents of its inputs, and inputs are
dropped only where every live document in their ranges is unreadable. In a
wave, a run that waits to be installed stays whole while others are replaced.
-/

namespace Ferret

open List

section

variable {env : Env} {live : DocSet}

variable {codec : Codec} {plan : RunPlan} {v : View} {ps : List WrittenPair}

/-- **An output of a merge finds what its inputs found**, of the live
documents. -/
theorem merge_fill_holds {inputs : List Stored} {out : Draft}
    {sizes : Merge.Sizes} (h : merge_fill env live codec plan inputs = .ok (out, sizes))
    (hasc : Merge.Ascending (inputs.map Stored.toContents))
    (hrange : ∀ s ∈ inputs, plan.first ≤ s.first ∧ s.last ≤ plan.last)
    (hcodec : ∀ s ∈ inputs, s.codec = codec) {t : Bytes} {d : ℕ}
    (hlive : live.contains d = true) {s : Stored} (hs : s ∈ inputs)
    (hd : d ∈ s.lookup env.fingerprint t) :
    Inverter.Holds out.terms t d ∨ toLex (env.fingerprint t, d) ∈ out.records := by
  have hrange' : ∀ c ∈ inputs.map Stored.toContents, plan.first ≤ c.first ∧ c.last ≤ plan.last := by
    intro c hc
    obtain ⟨s, hs, rfl⟩ := mem_map.mp hc
    exact hrange s hs
  have hmem : s.toContents ∈ inputs.map Stored.toContents := mem_map_of_mem hs
  simp only [merge_fill, bind, Except.bind] at h
  split at h
  · cases h
  rename_i w hw
  cases codec with
  | dictionary =>
    have hplain : ∀ c ∈ inputs.map Stored.toContents, c.records = [] := by
      intro c hc
      obtain ⟨s, hs, rfl⟩ := mem_map.mp hc
      exact s.plain (hcodec s hs)
    obtain ⟨out', sizes', hstream, hp, -⟩ :=
      @Merge.stream_dictionary env.fingerprint _ live _ _ hasc hrange' hplain w hw
    rw [hstream] at h
    cases h
    have hdocs : d ∈ docsOf s.terms t := by
      rcases Contents.mem_lookup.mp hd with hd | hd
      · exact hd
      · rw [hplain _ hmem] at hd
        cases hd
    have hlive' := Merge.mem_live_docs.mpr ⟨⟨_, hmem, hdocs⟩, hlive⟩
    exact .inl ⟨_, (hp.mem_iff t _).mpr ⟨ne_nil_of_mem hlive', rfl⟩, hlive'⟩
  | fingerprint =>
    obtain ⟨_, _, hcarried, hcases⟩ :=
      @Merge.stream_fingerprint env.fingerprint _ live _ _ hasc hrange' w hw
    rcases hcases with ⟨out', sizes', hstream, rfl, rfl⟩ | ⟨hstream, -⟩
    · rw [hstream] at h
      cases h
      rcases Contents.mem_lookup.mp hd with hd | hd
      · rcases hcarried.dictionary t d hlive ⟨_, hmem, hd⟩ with hd | hd
        · obtain ⟨⟨_, docs⟩, hp, rfl, hdocs⟩ := Merge.mem_docsOf hd
          exact .inl ⟨docs, hp, hdocs⟩
        · exact .inr hd
      · exact .inr (hcarried.carried _ hmem _ hd hlive)
    · rw [hstream] at h
      cases h

/-! ## Replacing a run -/

/-- A pair, or none, that can stand for adjacent pairs: it is over their range
and finds the live documents they found, other than the unreadable. -/
structure Replaces (env : Env) (live : DocSet) (unreadable : List ℕ) (inputs : List WrittenPair)
    (q : Option WrittenPair) : Prop where
  pair : ∀ p, q = some p → p.Matches env.codec
  first : ∀ p, q = some p → ∀ a, inputs.head? = some a → a.entry.first = p.entry.first
  last : ∀ p, q = some p → ∀ b, inputs.getLast? = some b → b.entry.last = p.entry.last
  terms : ∀ d t, live.contains d = true → d ∉ unreadable →
    ∀ a ∈ inputs, d ∈ a.segment.lookup env.fingerprint t →
      ∃ p, q = some p ∧ d ∈ p.segment.lookup env.fingerprint t
  trigrams : ∀ d k, live.contains d = true → d ∉ unreadable →
    ∀ a ∈ inputs, d ∈ docsOf a.trigram.terms k → ∃ p, q = some p ∧ d ∈ docsOf p.trigram.terms k

theorem Replaces.imp {us us' : List ℕ} {inputs : List WrittenPair} {q : Option WrittenPair}
    (h : Replaces env live us inputs q) (hus : ∀ u ∈ us, u ∈ us') :
    Replaces env live us' inputs q :=
  { h with
    terms := fun d t hl hd => h.terms d t hl fun hd' => hd (hus d hd')
    trigrams := fun d k hl hd => h.trigrams d k hl fun hd' => hd (hus d hd') }

/-- The pairs of a consistent view are in range order, and so are its
segments. -/
theorem View.Opens.disjoint (ho : v.Opens codec ps) (hc : v.manifest.Consistent) :
    ps.Pairwise fun a b => a.entry.last < b.entry.first := by
  have h := hc.disjoint
  rw [ho.entries] at h
  exact pairwise_map.mp h

/-- A segment is found by its number. -/
theorem View.Opens.findIdx_first {A O B : List WrittenPair}
    {first : WrittenPair} (ho : v.Opens codec (A ++ first :: O ++ B)) (hc : v.manifest.Consistent) :
    (v.manifest.segments.findIdx? fun entry => entry.number = first.entry.number)
      = some A.length := by
  have hnums := hc.numbers
  rw [ho.entries, map_map] at hnums
  rw [ho.entries, findIdx?_eq_some_iff_getElem]
  refine ⟨by simp, by simp, fun j hj => ?_⟩
  have hlt : j < A.length := hj
  simp only [append_assoc, getElem_map, getElem_append_left hlt, decide_eq_true_eq]
  intro heq
  rw [append_assoc, map_append, nodup_append] at hnums
  exact hnums.2.2 _ (mem_map.mpr ⟨A[j], getElem_mem hlt, heq⟩) first.entry.number
    (mem_map.mpr ⟨first, by simp, rfl⟩) rfl

/-- **A merged run covers what its inputs covered.** -/
theorem write_run_replaces {run : Run}
    {q : WrittenPair} {sizes : Merge.Sizes} (ho : v.Opens env.codec ps)
    (hc : v.manifest.Consistent) (h : write_run env live plan v run = .ok (q, sizes))
    (hfirst : ∀ a, (run.slice ps).head? = some a → a.entry.first = plan.first)
    (hlast : ∀ b, (run.slice ps).getLast? = some b → b.entry.last = plan.last) (us : List ℕ) :
    Replaces env live us (run.slice ps) (some q) ∧ q.entry.number = plan.manifest.next_number := by
  have hdisjoint : (run.slice ps).Pairwise fun a b => a.entry.last < b.entry.first :=
    (ho.disjoint hc).sublist ((take_sublist ..).trans (drop_sublist ..))
  have hmatch : ∀ p ∈ run.slice ps, p.Matches env.codec ∧ p.entry.first ≤ p.entry.last := by
    intro p hp
    have hp := mem_of_mem_drop (mem_of_mem_take hp)
    have hm := ho.pairs p hp
    exact ⟨hm, hm.segment.1 ▸ hm.segment.2 ▸ p.segment.first_le⟩
  -- the inputs lie in the range of the output
  have hwithin : ∀ p ∈ run.slice ps, plan.first ≤ p.entry.first ∧ p.entry.last ≤ plan.last := by
    intro p hp
    constructor
    · cases hs : run.slice ps with
      | nil =>
        rw [hs] at hp
        cases hp
      | cons a rest =>
        rw [hs] at hp hdisjoint hmatch
        have ha : a.entry.first = plan.first := hfirst a (by rw [hs]; rfl)
        rcases mem_cons.mp hp with rfl | hp
        · exact ha.ge
        · have h₁ := (pairwise_cons.mp hdisjoint).1 p hp
          have h₂ := (hmatch a (.head _)).2
          omega
    · rcases eq_nil_or_concat (run.slice ps) with hs | ⟨rest, b, hs⟩
      · rw [hs] at hp
        cases hp
      · rw [concat_eq_append] at hs
        rw [hs] at hp hdisjoint hmatch
        have hb : b.entry.last = plan.last := hlast b (by rw [hs]; simp)
        rcases mem_append.mp hp with hp | hp
        · have h₁ := (pairwise_append.mp hdisjoint).2.2 p hp b (mem_singleton_self b)
          have h₂ := (hmatch b (mem_append_right _ (mem_singleton_self b))).2
          omega
        · rw [mem_singleton.mp hp]
          exact hb.le
  have hsegments : run.slice v.segments = (run.slice ps).map WrittenPair.segment := by
    rw [ho.segments, Run.slice_map]
  have htrigrams : run.slice v.trigrams = (run.slice ps).map WrittenPair.trigram := by
    rw [ho.trigrams, Run.slice_map]
  simp only [write_run, bind, Except.bind] at h
  cases hf : merge_fill env live env.codec plan (run.slice v.segments) with
  | error e =>
    rw [hf] at h
    cases h
  | ok terms =>
    obtain ⟨terms, _⟩ := terms
    cases hg : merge_fill env live .dictionary plan (run.slice v.trigrams) with
    | error e =>
      rw [hf, hg] at h
      cases h
    | ok tris =>
      obtain ⟨tris, _⟩ := tris
      rw [hf, hg] at h
      simp only [Except.mapError] at h
      split at h
      · cases h
      rename_i q' hpair
      cases h
      obtain ⟨hq, ⟨hnumber, hqf, hql⟩, ⟨hst, hsr⟩, htt, htr⟩ := prepare_pair_ok hpair
      rw [hsegments] at hf
      rw [htrigrams] at hg
      refine ⟨⟨fun p hp => ?_, fun p hp a ha => ?_, fun p hp b hb => ?_,
        fun d t hl _ a ha hd => ⟨q, rfl, ?_⟩, fun d k hl _ a ha hd => ⟨q, rfl, ?_⟩⟩, hnumber⟩
      · cases hp
        exact hq
      · cases hp
        rw [hqf]
        exact hfirst a ha
      · cases hp
        rw [hql]
        exact hlast b hb
      · have hold := merge_fill_holds hf
          (by
            rw [Merge.Ascending, map_map, pairwise_map]
            refine hdisjoint.imp_of_mem fun {a b} ha hb hab => ?_
            show a.segment.last < b.segment.first
            rw [(hmatch a ha).1.segment.2, (hmatch b hb).1.segment.1]
            exact hab)
          (fun s hs => by
            obtain ⟨p, hp, rfl⟩ := mem_map.mp hs
            rw [(hmatch p hp).1.segment.1, (hmatch p hp).1.segment.2]
            exact hwithin p hp)
          (fun s hs => by
            obtain ⟨p, hp, rfl⟩ := mem_map.mp hs
            exact (hmatch p hp).1.codec)
          hl (mem_map_of_mem ha) hd
        refine Contents.mem_lookup.mpr (hold.imp (fun hold => ?_) fun hrec => hsr ▸ hrec)
        exact Contents.docsOf_of_holds (hst ▸ hold)
      · have hold := merge_fill_holds hg
          (by
            rw [Merge.Ascending, map_map, pairwise_map]
            refine hdisjoint.imp_of_mem fun {a b} ha hb hab => ?_
            show a.trigram.last < b.trigram.first
            rw [(hmatch a ha).1.trigram.2, (hmatch b hb).1.trigram.1]
            exact hab)
          (fun s hs => by
            obtain ⟨p, hp, rfl⟩ := mem_map.mp hs
            rw [(hmatch p hp).1.trigram.1, (hmatch p hp).1.trigram.2]
            exact hwithin p hp)
          (fun s hs => by
            obtain ⟨p, hp, rfl⟩ := mem_map.mp hs
            exact (hmatch p hp).1.trigram_codec)
          hl (mem_map_of_mem ha) (Contents.mem_lookup.mpr (.inl hd))
        rcases hold with hold | hrec
        · exact Contents.docsOf_of_holds (htt ▸ hold)
        · rw [← htr, q.trigram.plain hq.trigram_codec] at hrec
          cases hrec

/-- Where no document survives, every live one in range is unreadable. -/
theorem plan_run_drops {clock : ℕ → ℕ} {budget : Budget} {run : Run} (ho : v.Opens env.codec ps)
    (hc : v.manifest.Consistent) (h : plan_run clock live budget v run = some plan)
    (hdocs : plan.docs = 0) :
    Replaces env live (v.manifest.unreadable.filter live.contains) (run.slice ps) none := by
  set us := v.manifest.unreadable.filter live.contains with hus
  have hzero : ((run.slice v.manifest.segments).map fun s => alive s live us).sum = 0 := by
    simp only [plan_run] at h
    split at h
    · cases h
    · split at h
      · cases h
        exact hdocs
      · cases h
  have hnodup : us.Nodup := (hc.unreadable.filter _).imp fun hab => ne_of_lt hab
  -- a live document in the range of an input is unreadable
  have hrange : ∀ p ∈ run.slice ps, ∀ d, p.entry.first ≤ d ∧ d ≤ p.entry.last →
      live.contains d = true → d ∈ us := by
    intro p hp d hd hl
    refine alive_eq_zero hnodup (sum_eq_zero_iff.mp hzero _ ?_) hd hl
    rw [ho.entries, Run.slice_map, map_map]
    exact mem_map.mpr ⟨p, hp, rfl⟩
  have hin : ∀ p ∈ run.slice ps, p.Matches env.codec := fun p hp =>
    ho.pairs p (mem_of_mem_drop (mem_of_mem_take hp))
  refine ⟨nofun, nofun, nofun,
    fun d t hl hd a ha hlook => ?_, fun d k hl hd a ha hlook => ?_⟩
  · have hw := Contents.lookup_within hlook
    rw [(hin a ha).segment.1, (hin a ha).segment.2] at hw
    exact absurd (hrange a ha d hw hl) hd
  · have hw := Contents.docsOf_within hlook
    rw [(hin a ha).trigram.1, (hin a ha).trigram.2] at hw
    exact absurd (hrange a ha d hw hl) hd

end

section

variable {env : Env} {catalog : CatalogView} {seen : List CatalogView} {s : View × Log}
variable {read : ℕ → Except Fault Extracted} {clock : ℕ → ℕ} {budget : Budget}

variable {v : View} {q : Option WrittenPair} {m : Manifest} {ps : List WrittenPair}

theorem mem_splice {A O B : List WrittenPair} {p : WrittenPair} (Q : List WrittenPair)
    (h : p ∈ A ++ O ++ B) : p ∈ A ++ Q ++ B ∨ p ∈ O := by
  simp only [mem_append] at h ⊢
  tauto

/-- **A view with some segments replaced** opens, and is consistent. -/
theorem View.Opens.replace {live : DocSet} {us : List ℕ} {A O B : List WrittenPair}
    (ho : v.Opens env.codec (A ++ O ++ B)) (hc : v.manifest.Consistent) (hO : O ≠ [])
    (hq : Replaces env live us O q)
    (hsegments : m.segments = (A ++ q.toList ++ B).map WrittenPair.entry)
    (hunreadable : m.unreadable = v.manifest.unreadable.filter live.contains)
    (hm : m.frontier = v.manifest.frontier ∧ m.high_water = v.manifest.high_water)
    (hnumber : v.manifest.next_number ≤ m.next_number) (hfresh : ∀ p, q = some p →
      v.manifest.next_number ≤ p.entry.number ∧ p.entry.number < m.next_number) :
    let w : View := { manifest := { m with sequence := m.sequence + 1 }
                      segments := (A ++ q.toList ++ B).map WrittenPair.segment
                      trigrams := (A ++ q.toList ++ B).map WrittenPair.trigram }
    w.Opens env.codec (A ++ q.toList ++ B) ∧ w.manifest.Consistent := by
  intro w
  have hopens : w.Opens env.codec (A ++ q.toList ++ B) := by
    refine ⟨hsegments, rfl, rfl, fun p hp => ?_⟩
    rcases mem_splice O hp with hp | hp
    · exact ho.pairs p hp
    · exact hq.pair p (Option.mem_toList.mp hp)
  obtain ⟨a, O', rfl⟩ := exists_cons_of_ne_nil hO
  -- the last of the inputs
  obtain ⟨b, hb⟩ : ∃ b, (a :: O').getLast? = some b := ⟨_, getLast?_eq_some_getLast hO⟩
  have hbmem : b ∈ a :: O' := mem_of_getLast? hb
  have hin : ∀ p ∈ A ++ (a :: O') ++ B, p.entry ∈ v.manifest.segments := fun p hp => by
    rw [ho.entries]
    exact mem_map_of_mem hp
  have hdisjoint := ho.disjoint hc
  obtain ⟨hAO, hB, hAOB⟩ := pairwise_append.mp hdisjoint
  obtain ⟨hA, -, hAOx⟩ := pairwise_append.mp hAO
  have hconsistent : w.manifest.Consistent := by
    have hold : ∀ p ∈ A ++ (a :: O') ++ B, p.entry.first ≤ p.entry.last
        ∧ p.entry.last < m.frontier ∧ p.entry.number < m.next_number := fun p hp => by
      have := hc.ranges p.entry (hin p hp)
      rw [hm.1]
      omega
    refine ⟨fun e he => ?_, ?_, ?_, ?_, ?_, ?_⟩
    · have he : e ∈ m.segments := he
      rw [hsegments] at he
      obtain ⟨p, hp, rfl⟩ := mem_map.mp he
      show p.entry.first ≤ p.entry.last ∧ p.entry.last < m.frontier ∧ p.entry.number < m.next_number
      rcases mem_splice (a :: O') hp with hp | hp
      · exact hold p hp
      · have hp := Option.mem_toList.mp hp
        have hmatch := hq.pair p hp
        have hle := p.segment.first_le
        have hlast := hq.last p hp b hb
        have := (hold b (mem_append_left _ (mem_append_right _ hbmem))).2.1
        rw [hmatch.segment.1, hmatch.segment.2] at hle
        exact ⟨hle, hlast ▸ this, (hfresh p hp).2⟩
    · show m.segments.Pairwise _
      rw [hsegments, pairwise_map]
      refine pairwise_append.mpr ⟨pairwise_append.mpr ⟨hA, ?_, fun x hx y hy => ?_⟩, hB,
        fun x hx y hy => ?_⟩
      · cases q <;> simp
      · rw [← hq.first y (Option.mem_toList.mp hy) a rfl]
        exact hAOx x hx a (.head _)
      · rcases mem_append.mp hx with hx | hx
        · exact hAOB x (mem_append_left _ hx) y hy
        · rw [← hq.last x (Option.mem_toList.mp hx) b hb]
          exact hAOB b (mem_append_right _ hbmem) y hy
    · show (m.segments.map SegmentEntry.number).Nodup
      rw [hsegments, map_map]
      have hnums := hc.numbers
      rw [ho.entries, map_map] at hnums
      have hlt : ∀ p ∈ A ++ (a :: O') ++ B, p.entry.number < v.manifest.next_number :=
        fun p hp => (hc.ranges p.entry (hin p hp)).2.2
      cases q with
      | none =>
        refine hnums.sublist (List.Sublist.map _ ?_)
        simp only [Option.toList_none, append_nil]
        exact (sublist_append_left ..).append_right _
      | some p =>
        have hsub : (A ++ B).Sublist (A ++ (a :: O') ++ B) :=
          (sublist_append_left ..).append_right _
        have hperm : List.Perm (A ++ (some p).toList ++ B) (p :: (A ++ B)) := by
          rw [append_assoc]
          exact perm_middle
        refine (hperm.map _).nodup_iff.mpr (nodup_cons.mpr ⟨fun hmem => ?_,
          hnums.sublist (hsub.map _)⟩)
        obtain ⟨p', hp', heq⟩ := mem_map.mp hmem
        have h₁ := hlt p' (hsub.subset hp')
        have h₂ := (hfresh p rfl).1
        exact absurd heq (ne_of_lt (h₁.trans_le h₂))
    · show m.unreadable.Pairwise _
      rw [hunreadable]
      exact hc.unreadable.filter _
    · show ∀ u ∈ m.unreadable, u < m.frontier
      rw [hunreadable, hm.1]
      exact fun u hu => hc.below u (mem_filter.mp hu).1
    · show m.frontier ≤ m.high_water
      rw [hm.1, hm.2]
      exact hc.frontier
  exact ⟨hopens, hconsistent⟩

/-- **Publishing in place of a run.** -/
theorem Sound.replace (h : Sound env.fingerprint env.codec seen s)
    (read : ℕ → Except Fault Extracted) (hseen : catalog ∈ seen)
    (hfits : s.1.manifest.fits catalog = true) {A O B : List WrittenPair}
    (ho : s.1.Opens env.codec (A ++ O ++ B)) (hO : O ≠ [])
    (hq : Replaces env catalog.live (s.1.manifest.unreadable.filter catalog.live.contains) O q)
    (hsegments : m.segments = (A ++ q.toList ++ B).map WrittenPair.entry)
    (hunreadable : m.unreadable = s.1.manifest.unreadable.filter catalog.live.contains)
    (hm : m.incarnation = s.1.manifest.incarnation ∧ m.frontier = s.1.manifest.frontier
      ∧ m.high_water = s.1.manifest.high_water) (hnumber : s.1.manifest.next_number ≤ m.next_number)
    (hfresh : ∀ p, q = some p →
      s.1.manifest.next_number ≤ p.entry.number ∧ p.entry.number < m.next_number) :
    let w : View := { manifest := { m with sequence := m.sequence + 1 }
                      segments := (A ++ q.toList ++ B).map WrittenPair.segment
                      trigrams := (A ++ q.toList ++ B).map WrittenPair.trigram }
    w.Opens env.codec (A ++ q.toList ++ B) ∧ Publication s.1 w
      ∧ Sound env.fingerprint env.codec seen (accept read catalog.live s w) := by
  intro w
  obtain ⟨hopens, hconsistent⟩ := ho.replace h.consistent hO hq hsegments hunreadable hm.2 hnumber hfresh
  have hfit : s.1.manifest.incarnation = catalog.incarnation
      ∧ s.1.manifest.high_water ≤ catalog.live.bound := by
    simp only [Manifest.fits, Bool.and_eq_true, decide_eq_true_eq] at hfits
    exact ⟨hfits.1.1.1, hfits.2⟩
  have hwu : w.manifest.unreadable = s.1.manifest.unreadable.filter catalog.live.contains := hunreadable
  have hwf : w.manifest.frontier = s.1.manifest.frontier := hm.2.1
  have hpub : Publication s.1 w := .of ho hopens h.consistent hconsistent fun p hp => by
    exact (mem_splice O hp).imp_right fun hp => (hfresh p (Option.mem_toList.mp hp)).1
  refine ⟨hopens, hpub, h.publish hseen hfit.1 hm.1 hconsistent ⟨_, hopens⟩ hwf.ge
    (hwf ▸ h.consistent.frontier.trans hfit.2) (fun d hd hl => ?_) (fun d hd hl hnot => ?_)
    fun d hge hlt => ?_⟩
  · rw [hwu]
    exact mem_filter.mpr ⟨hd, hl⟩
  · rw [hwu] at hnot
    have hin : ∀ {p}, q = some p → p ∈ A ++ q.toList ++ B := fun hp =>
      mem_append_left _ (mem_append_right _ (Option.mem_toList.mpr hp))
    refine ⟨fun t ht => ?_, fun k hk => ?_⟩
    · obtain ⟨p, hp, hd⟩ := ho.mem_lookup.mp ht
      refine hopens.mem_lookup.mpr ?_
      rcases mem_splice q.toList hp with hp | hp
      · exact ⟨p, hp, hd⟩
      · obtain ⟨p', hp', hd'⟩ := hq.terms d t hl hnot p hp hd
        exact ⟨p', hin hp', hd'⟩
    · obtain ⟨p, hp, hd⟩ := ho.mem_lookup_trigram.mp hk
      refine hopens.mem_lookup_trigram.mpr ?_
      rcases mem_splice q.toList hp with hp | hp
      · exact ⟨p, hp, hd⟩
      · obtain ⟨p', hp', hd'⟩ := hq.trigrams d k hl hnot p hp hd
        exact ⟨p', hin hp', hd'⟩
  · rw [hwf] at hlt
    exact absurd hge (not_le.mpr hlt)

/-- What a plan says of its run. -/
theorem plan_run_spec {run : Run} {plan : RunPlan} {codec : Codec} (ho : v.Opens codec ps)
    (h : plan_run clock catalog.live budget v run = some plan) :
    run.slice ps ≠ []
      ∧ (∀ a, (run.slice ps).head? = some a → a.entry.first = plan.first)
      ∧ (∀ b, (run.slice ps).getLast? = some b → b.entry.last = plan.last)
      ∧ plan.manifest = { v.manifest with
          last_merge := some (clock v.manifest.sequence)
          unreadable := v.manifest.unreadable.filter catalog.live.contains } := by
  simp only [plan_run] at h
  split at h
  · cases h
  · split at h
    · rename_i head tail hhead htail
      cases h
      rw [ho.entries, Run.slice_map] at hhead htail
      refine ⟨fun hnil => ?_, fun a ha => ?_, fun b hb => ?_, rfl⟩
      · rw [hnil] at hhead
        cases hhead
      · rw [head?_map, ha] at hhead
        cases hhead
        rfl
      · rw [getLast?_map, hb] at htail
        cases htail
        rfl
    · cases h

/-- What replacing a run needs of the manifest it publishes. -/
structure Follows (s : View × Log) (live : DocSet) (q : Option WrittenPair) (m : Manifest) : Prop where
  segments : m.segments = s.1.manifest.segments
  unreadable : m.unreadable = s.1.manifest.unreadable.filter live.contains
  versions : m.tokenizer_version = s.1.manifest.tokenizer_version
    ∧ m.trigram_version = s.1.manifest.trigram_version
  kept : m.incarnation = s.1.manifest.incarnation ∧ m.frontier = s.1.manifest.frontier
    ∧ m.high_water = s.1.manifest.high_water
  number : s.1.manifest.next_number ≤ m.next_number
  fresh : ∀ p, q = some p →
    s.1.manifest.next_number ≤ p.entry.number ∧ p.entry.number < m.next_number

/-- **Replacing a run keeps the index sound.** -/
theorem replace_run_keeps (h : Sound env.fingerprint env.codec seen s) (hseen : catalog ∈ seen)
    (hfits : s.1.manifest.fits catalog = true)
    (ho : s.1.Opens env.codec ps) {run : Run} (hrun : run.slice ps ≠ [])
    (hq : Replaces env catalog.live (s.1.manifest.unreadable.filter catalog.live.contains)
      (run.slice ps) q) (hm : Follows s catalog.live q m) :
    Keeps env read catalog seen (replace_run s.1 m run q) s fun w s' =>
      w = s'.1 ∧ Sound env.fingerprint env.codec seen s' ∧ s'.1.Opens env.codec (run.splice ps q)
        ∧ s'.1.manifest.fits catalog = true ∧ s'.1.manifest.next_number = m.next_number
        ∧ s'.1.manifest.unreadable = m.unreadable := by
  have ho' : s.1.Opens env.codec (ps.take run.start ++ run.slice ps ++ ps.drop run.stop) :=
    run.parts ps ▸ ho
  obtain ⟨hopens, hpub, hsound⟩ := h.replace read hseen hfits ho' hrun hq
    (m := { m with segments := (run.splice ps q).map WrittenPair.entry })
    rfl hm.unreadable hm.kept hm.number hm.fresh
  rw [replace_run, hm.segments, ho.entries, ho.segments, ho.trigrams, Run.splice_map,
    Run.splice_map, Run.splice_map]
  refine .publish h hpub hsound ⟨rfl, hsound, hopens, ?_, rfl, rfl⟩
  simp only [Manifest.fits] at hfits
  simp only [accept, Manifest.fits, hm.versions, hm.kept]
  exact hfits

/-- **A merge keeps the index sound.** -/
theorem merge_run_keeps (hseen : catalog ∈ seen) (h : Sound env.fingerprint env.codec seen s)
    (hfits : s.1.manifest.fits catalog = true) (run : Run) :
    Keeps env read catalog seen (merge_run env clock catalog.live budget s.1 run) s
      fun _ _ => True := by
  obtain ⟨_, ho⟩ := h.opens
  unfold merge_run
  cases hplan : plan_run clock catalog.live budget s.1 run with
  | none => exact .pure h trivial
  | some plan =>
    obtain ⟨hne, hfirst, hlast, hmanifest⟩ := plan_run_spec ho hplan
    simp only
    split
    · rename_i hdocs
      refine .bind (replace_run_keeps h hseen hfits ho hne (plan_run_drops ho h.consistent hplan hdocs)
        ?_) fun _ _ hs => .pure hs.2.1 trivial
      rw [hmanifest]
      exact ⟨rfl, rfl, ⟨rfl, rfl⟩, ⟨rfl, rfl, rfl⟩, le_rfl, nofun⟩
    · refine .bind (M := fun r s' => s = s' ∧ write_run env catalog.live plan s.1 run = .ok r)
        (.lift h fun r hr => ⟨rfl, hr⟩) ?_
      rintro ⟨q, _⟩ s' ⟨rfl, hwrite⟩
      obtain ⟨hrep, hnumber⟩ := write_run_replaces ho h.consistent hwrite hfirst hlast
        (s.1.manifest.unreadable.filter catalog.live.contains)
      refine .bind (replace_run_keeps h hseen hfits ho hne hrep ?_)
        fun _ _ hs => .pure hs.2.1 trivial
      rw [hmanifest] at hnumber ⊢
      refine ⟨rfl, rfl, ⟨rfl, rfl⟩, ⟨rfl, rfl, rfl⟩, Nat.le_succ _, fun p hp => ?_⟩
      cases hp
      exact ⟨hnumber.ge, hnumber ▸ Nat.lt_succ_self _⟩

theorem merge_selected_keeps (hseen : catalog ∈ seen) (h : Sound env.fingerprint env.codec seen s)
    (plan : MergePlan s.1) :
    Keeps env read catalog seen (merge_selected env clock budget catalog s.1 plan) s
      fun _ _ => True := by
  unfold merge_selected
  split
  · rename_i hfits
    exact merge_run_keeps hseen h hfits plan.run
  · exact .lift h nofun

/-! ## Waves -/

/-- A job that waits to be installed: its inputs are where they were, next to
each other, and its output can stand for them. -/
structure Job.Waits {v : View} (env : Env) (live : DocSet) (origin : List WrittenPair)
    (current : View) (ps : List WrittenPair) (job : Job v) : Prop where
  whole : ∃ A B, ps = A ++ job.plan.run.slice origin ++ B
  ne_nil : job.plan.run.slice origin ≠ []
  replaces : Replaces env live (current.manifest.unreadable.filter live.contains)
    (job.plan.run.slice origin) job.output

/-- The outputs have numbers of their own, from `n` on. -/
def Numbered {v : View} : ℕ → List (Job v) → Prop
  | _, [] => True
  | n, job :: rest => (∀ p, job.output = some p → p.entry.number = n) ∧ Numbered (n + 1) rest

/-- **A wave is installed one job at a time.** The others wait: their inputs
are in parts of the list that the replacement does not touch. -/
theorem install_all_keeps (hseen : catalog ∈ seen) {origin : List WrittenPair}
    (horigin : v.Opens env.codec origin) (jobs : List (Job v)) {n : ℕ}
    (h : Sound env.fingerprint env.codec seen s) (hfits : s.1.manifest.fits catalog = true)
    (ho : s.1.Opens env.codec ps) (hwaits : ∀ job ∈ jobs, job.Waits env catalog.live origin s.1 ps)
    (hdisjoint : jobs.Pairwise fun a b =>
      (a.plan.run.slice origin).Disjoint (b.plan.run.slice origin))
    (hnumbered : Numbered n jobs) (hn : s.1.manifest.next_number ≤ n) :
    Keeps env read catalog seen (install_all catalog.live s.1 jobs) s fun _ _ => True := by
  induction jobs generalizing s n ps with
  | nil => exact .pure h trivial
  | cons job _ ih =>
    obtain ⟨hjob, hrest⟩ := pairwise_cons.mp hdisjoint
    obtain ⟨hout, hnumbered'⟩ := hnumbered
    have hw := hwaits job (.head _)
    obtain ⟨A, B, rfl⟩ := hw.whole
    obtain ⟨first, O, hO⟩ := exists_cons_of_ne_nil hw.ne_nil
    -- the inputs are found by the number of the first
    have hhead : job.plan.entries.head? = some first.entry := by
      rw [MergePlan.entries, horigin.entries, Run.slice_map, hO]
      rfl
    have hfind : (s.1.manifest.segments.findIdx? fun entry => entry.number = first.entry.number)
        = some A.length := by
      rw [hO] at ho
      exact ho.findIdx_first h.consistent
    have hlen : job.plan.run.len = (job.plan.run.slice origin).length := by
      refine (Run.length_slice _ ?_).symm
      have := job.plan.within
      rwa [horigin.entries, length_map] at this
    set run : Run :=
      { start := A.length, stop := A.length + job.plan.run.len, start_le := le_self_add }
      with hrun
    have hrunlen : run.len = (job.plan.run.slice origin).length := by
      rw [hrun, ← hlen]
      exact Nat.add_sub_cancel_left ..
    have hslice : run.slice (A ++ job.plan.run.slice origin ++ B) = job.plan.run.slice origin :=
      Run.slice_parts rfl hrunlen
    have hsplice : ∀ q, run.splice (A ++ job.plan.run.slice origin ++ B) q = A ++ q.toList ++ B :=
      fun q => Run.splice_parts rfl hrunlen
    refine .bind (M := fun w s' => w = s'.1 ∧ Sound env.fingerprint env.codec seen s'
      ∧ s'.1.Opens env.codec (A ++ job.output.toList ++ B) ∧ s'.1.manifest.fits catalog = true
      ∧ s'.1.manifest.next_number ≤ n + 1
      ∧ s'.1.manifest.unreadable = s.1.manifest.unreadable.filter catalog.live.contains) ?_ ?_
    · unfold install
      rw [hhead]
      simp only [hfind]
      have hne : run.slice (A ++ job.plan.run.slice origin ++ B) ≠ [] := by
        rw [hslice]
        exact hw.ne_nil
      have hrep : Replaces env catalog.live (s.1.manifest.unreadable.filter catalog.live.contains)
          (run.slice (A ++ job.plan.run.slice origin ++ B)) job.output := by
        rw [hslice]
        exact hw.replaces
      refine (replace_run_keeps h hseen hfits ho hne hrep ?_).imp ?_
      · refine ⟨rfl, rfl, ⟨rfl, rfl⟩, ⟨rfl, rfl, rfl⟩, ?_, fun p hp => ?_⟩
        · cases job.output with
          | none => exact le_rfl
          | some pair => exact le_max_left ..
        · rw [hp]
          exact ⟨(hout p hp) ▸ hn, (Nat.lt_succ_self _).trans_le (le_max_right ..)⟩
      rintro w s' ⟨rfl, hs', hopens, hfits', hnext, hus⟩
      rw [hsplice] at hopens
      refine ⟨rfl, hs', hopens, hfits', ?_, hus⟩
      rw [hnext]
      dsimp only
      cases hq : job.output with
      | none => exact hn.trans (Nat.le_succ _)
      | some pair =>
        show max s.1.manifest.next_number (pair.entry.number + 1) ≤ n + 1
        rw [hout pair hq]
        exact max_le (hn.trans (Nat.le_succ _)) le_rfl
    · rintro w s' ⟨rfl, hs', hopens, hfits', hnext, hus⟩
      refine ih hs' hfits' hopens (fun other hother => ?_) hrest hnumbered' hnext
      have hother' := hwaits other (.tail _ hother)
      obtain ⟨_, _, heq⟩ := hother'.whole
      refine ⟨Run.infix_replace heq hw.ne_nil hother'.ne_nil (hjob other hother), hother'.ne_nil,
        hother'.replaces.imp fun u hu => ?_⟩
      rw [hus]
      exact mem_filter.mpr ⟨hu, (mem_filter.mp hu).2⟩

/-- A written job waits to be installed. -/
theorem write_job_waits {i : ℕ} (ho : s.1.Opens env.codec ps)
    (hc : s.1.manifest.Consistent) {plan : MergePlan s.1} {job : Job s.1}
    (h : write_job env clock catalog.live budget i plan = .ok job) :
    job.Waits env catalog.live ps s.1 ps ∧ job.plan = plan
      ∧ ∀ p, job.output = some p → p.entry.number = s.1.manifest.next_number + i := by
  unfold write_job at h
  cases hplan : plan_run clock catalog.live budget s.1 plan.run with
  | none =>
    rw [hplan] at h
    cases h
  | some _ =>
    obtain ⟨hne, hfirst, hlast, hmanifest⟩ := plan_run_spec ho hplan
    rw [hplan] at h
    simp only at h
    split at h
    · rename_i hdocs
      cases h
      exact ⟨⟨⟨_, _, plan.run.parts ps⟩, hne, plan_run_drops ho hc hplan hdocs⟩, rfl,
        nofun⟩
    · simp only [bind, Except.bind] at h
      split at h
      · cases h
      rename_i r hwrite
      obtain ⟨q, _⟩ := r
      cases h
      obtain ⟨hrep, hnumber⟩ := write_run_replaces ho hc hwrite hfirst hlast
        (s.1.manifest.unreadable.filter catalog.live.contains)
      refine ⟨⟨⟨_, _, plan.run.parts ps⟩, hne, hrep⟩, rfl, fun p hp => ?_⟩
      cases hp
      rw [hnumber, hmanifest]

theorem write_jobs_wait {i : ℕ} (ho : s.1.Opens env.codec ps)
    (hc : s.1.manifest.Consistent) {plans : List (MergePlan s.1)} {jobs : List (Job s.1)}
    (h : write_jobs env clock catalog.live budget i plans = .ok jobs) :
    (∀ job ∈ jobs, job.Waits env catalog.live ps s.1 ps) ∧ jobs.map Job.plan = plans
      ∧ Numbered (s.1.manifest.next_number + i) jobs := by
  induction plans generalizing i jobs with
  | nil =>
    cases h
    exact ⟨nofun, rfl, trivial⟩
  | cons _ _ ih =>
    simp only [write_jobs, bind, Except.bind] at h
    split at h
    · cases h
    rename_i job hjob
    split at h
    · cases h
    rename_i jobs' hjobs
    cases h
    obtain ⟨hw, hplan, hnum⟩ := write_job_waits ho hc hjob
    obtain ⟨h₁, h₂, h₃⟩ := ih hjobs
    exact ⟨forall_mem_cons.mpr ⟨hw, h₁⟩, by rw [map_cons, hplan, h₂], hnum, h₃⟩

/-- **A wave of merges keeps the index sound.** -/
theorem merge_selected_batch_keeps (hseen : catalog ∈ seen)
    (h : Sound env.fingerprint env.codec seen s) (plans : List (MergePlan s.1)) :
    Keeps env read catalog seen (merge_selected_batch env clock budget catalog s.1 plans) s
      fun _ _ => True := by
  obtain ⟨ps, ho⟩ := h.opens
  unfold merge_selected_batch
  split
  · exact .lift h nofun
  rename_i hok
  rw [not_or, not_or, not_not, Bool.not_eq_false] at hok
  refine .bind (M := fun jobs s' => s = s'
      ∧ write_jobs env clock catalog.live budget 0 plans = .ok jobs)
    (.lift h fun r hr => ⟨rfl, hr⟩) ?_
  rintro jobs s' ⟨rfl, hjobs⟩
  obtain ⟨hwaits, hplans, hnumbered⟩ := write_jobs_wait ho h.consistent hjobs
  have hnodup : ps.Nodup := by
    have hnums := h.consistent.numbers
    rw [ho.entries, map_map] at hnums
    exact hnums.of_map _
  have hdisjoint : jobs.Pairwise fun a b =>
      (a.plan.run.slice ps).Disjoint (b.plan.run.slice ps) := by
    have hpair := hok.2.2
    rw [← hplans, pairwise_map] at hpair
    refine hpair.imp fun {a b} hab => Run.disjoint_slice hnodup fun hboth => ?_
    simp only [MergePlan.overlaps, Bool.and_eq_false_iff, decide_eq_false_iff_not] at hab
    rcases hab with hab | hab
    · exact hab hboth.1
    · exact hab hboth.2
  refine .bind (M := fun _ s' => Sound env.fingerprint env.codec seen s') ?_
    fun _ _ hs => .pure hs trivial
  have hkeeps : Keeps env read catalog seen (install_all catalog.live s.1 jobs) s fun _ _ => True :=
    install_all_keeps hseen ho jobs h hok.2.1 ho hwaits hdisjoint hnumbered le_rfl
  exact ⟨hkeeps.prefixes, hkeeps.moves, fun a ha => hkeeps.prefixes _ (prefix_rfl)⟩

end

end Ferret
