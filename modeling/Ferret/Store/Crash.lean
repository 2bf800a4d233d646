import Ferret.Store.Files

/-!
# Publication survives crashes and failures

At every point of every run the manifest on disk is the one of the last
completed publication or the one of the publication being made, and all its
segments are there, complete. So a crash or an error, wherever it happens,
leaves an index that opens, and what is removed after an error is never a
file that the manifest on disk names.
-/

namespace Ferret

open List Function

/-! ## Calls and names -/

variable {c : Call}

theorem Call.apply_files {d : Dir} {n : Name} (h : c.touches n = false) :
    (c.apply d).files n = d.files n := by
  cases c with
  | unlink m | create m | fill m f =>
    exact update_of_ne (Ne.symm (of_decide_eq_false h)) _ _
  | rename a b =>
    obtain ⟨ha, hb⟩ := Bool.or_eq_false_iff.mp h
    exact (update_of_ne (Ne.symm (of_decide_eq_false ha)) _ _).trans
      (update_of_ne (Ne.symm (of_decide_eq_false hb)) _ _)
  | renameManifest => exact update_of_ne (of_decide_eq_false h) _ _
  | syncDir => rfl

theorem Call.apply_manifest (h : c ≠ .renameManifest) (d : Dir) :
    (c.apply d).manifest = d.manifest := by
  cases c with
  | renameManifest => exact absurd rfl h
  | unlink _ => rfl
  | create _ => rfl
  | fill _ _ => rfl
  | rename _ _ => rfl
  | syncDir => rfl

theorem Call.rename_touches {a b n : Name} (ha : a ≠ n) (hb : b ≠ n) :
    (rename a b).touches n = false :=
  Bool.or_eq_false_iff.mpr ⟨decide_eq_false ha, decide_eq_false hb⟩

theorem Call.rename_files {a b : Name} (h : b ≠ a) (d : Dir) :
    ((rename a b).apply d).files b = d.files a := by
  simp [apply, update_of_ne h]

/-- Calls on temporaries leave segments alone. -/
theorem Call.temporary_spec (h : c.temporary = true) :
    c ≠ .renameManifest ∧ ∀ first last number tri, c.touches (.segment first last number tri) = false := by
  unfold temporary at h
  split at h <;> first
    | exact ⟨Call.noConfusion, fun _ _ _ _ => rfl⟩
    | cases h

theorem file_name_inj {e e' : SegmentEntry} {tri tri' : Bool}
    (h : e.file_name tri = e'.file_name tri') : e.number = e'.number ∧ tri = tri' :=
  ⟨(Name.segment.inj h).2.2.1, (Name.segment.inj h).2.2.2⟩

/-! ## What is on disk -/

theorem read_segments_congr {d d' : Dir} {tri : Bool} {es : List SegmentEntry}
    (h : ∀ e ∈ es, d'.files (e.file_name tri) = d.files (e.file_name tri)) :
    read_segments d' tri es = read_segments d tri es := by
  induction es with
  | nil => rfl
  | cons e es ih =>
    obtain ⟨he, hes⟩ := forall_mem_cons.mp h
    rw [read_segments, read_segments, he, ih hes]

theorem open_pairs_congr {d d' : Dir} {m : Manifest}
    (h : ∀ e ∈ m.segments, ∀ tri, d'.files (e.file_name tri) = d.files (e.file_name tri)) :
    open_pairs d' m = open_pairs d m := by
  rw [open_pairs, open_pairs, read_segments_congr fun e he => h e he false,
    read_segments_congr fun e he => h e he true]

/-- What is on disk stays there while its files are left alone. -/
theorem OnDisk.frame {d d' : Dir} {disk : Option View} (h : OnDisk d disk)
    (hm : d'.manifest = d.manifest)
    (hf : ∀ v, disk = some v → ∀ e ∈ v.manifest.segments, ∀ tri,
      d'.files (e.file_name tri) = d.files (e.file_name tri)) : OnDisk d' disk := by
  cases disk with
  | none => exact hm.trans h
  | some v => exact ⟨hm.trans h.1, (open_pairs_congr (hf v rfl)).trans h.2⟩

/-- A directory holds one index. -/
theorem OnDisk.unique {d : Dir} {a b : Option View} (ha : OnDisk d a) (hb : OnDisk d b) : a = b := by
  cases a with
  | none =>
    cases b with
    | none => rfl
    | some w => exact absurd (ha.symm.trans hb.1) (by simp)
  | some v =>
    cases b with
    | none => exact absurd (hb.symm.trans ha.1) (by simp)
    | some w =>
      have hm : v.manifest = w.manifest := Option.some.inj (ha.1.symm.trans hb.1)
      have ho := ha.2
      rw [hm, hb.2] at ho
      exact ho.symm

theorem read_segments_eq_some {d : Dir} {tri : Bool} {ps : List WrittenPair} :
    read_segments d tri (ps.map WrittenPair.entry) = some (ps.map fun p => p.file tri)
      ↔ ∀ p ∈ ps, d.files (p.entry.file_name tri) = some (.segment (p.file tri)) := by
  induction ps with
  | nil => simp [read_segments]
  | cons p ps ih =>
    rw [map_cons, map_cons, read_segments, forall_mem_cons, ← ih]
    cases hf : d.files (p.entry.file_name tri) with
    | none => simp
    | some f =>
      cases f with
      | unfinished => simp
      | manifest m => simp
      | segment s =>
        simp only [Option.map_eq_some_iff, List.cons.injEq, Option.some.injEq, File.segment.injEq]
        constructor
        · rintro ⟨l, hl, rfl, rfl⟩
          exact ⟨rfl, hl⟩
        · rintro ⟨rfl, hl⟩
          exact ⟨_, hl, rfl, rfl⟩

/-- A view opens exactly when its files are in place. -/
theorem open_pairs_eq_some {d : Dir} {v : View} {codec : Codec} {ps : List WrittenPair}
    (ho : v.Opens codec ps) :
    open_pairs d v.manifest = some v
      ↔ ∀ p ∈ v.pairs, ∀ tri, d.files (p.entry.file_name tri) = some (.segment (p.file tri)) := by
  have hf : v.segments = ps.map fun p => p.file false := ho.segments
  have ht : v.trigrams = ps.map fun p => p.file true := ho.trigrams
  rw [ho.pairs_eq, open_pairs, ho.entries]
  constructor
  · intro h
    cases hs : read_segments d false (ps.map WrittenPair.entry) with
    | none =>
      rw [hs] at h
      cases h
    | some segments =>
      cases hg : read_segments d true (ps.map WrittenPair.entry) with
      | none =>
        rw [hs, hg] at h
        cases h
      | some trigrams =>
        rw [hs, hg] at h
        have hv := Option.some.inj h
        have h₁ : segments = v.segments := congrArg View.segments hv
        have h₂ : trigrams = v.trigrams := congrArg View.trigrams hv
        intro p hp tri
        cases tri with
        | false => exact read_segments_eq_some.mp (hs.trans (congrArg some (h₁.trans hf))) p hp
        | true => exact read_segments_eq_some.mp (hg.trans (congrArg some (h₂.trans ht))) p hp
  · intro h
    rw [read_segments_eq_some.mpr fun p hp => h p hp false,
      read_segments_eq_some.mpr fun p hp => h p hp true]
    simp only [← hf, ← ht]

/-! ## Safe acts -/

section

variable (fingerprint : Bytes → ℕ)

/-- A view of a sound index. -/
def Good (v : View) : Prop :=
  ∃ codec seen log, Sound fingerprint codec seen (v, log)

/-- What may be on disk in an operation: the last view published or, while a
manifest is being published, the next. -/
structure Around (d : Dir) (disk : Option View) (publishing : Bool) (next : Option View) :
    Prop where
  settled : publishing = false → OnDisk d disk
  either : OnDisk d disk ∨ ∃ w, next = some w ∧ Good fingerprint w ∧ OnDisk d (some w)

/-- **Acts that can be cut off anywhere**: at each point what is on disk is the
last view published or the next. -/
def Safe (d : Dir) (disk : Option View) (publishing : Bool) : List Act → Prop
  | [] => OnDisk d disk ∧ publishing = false
  | .call c :: todo => Around fingerprint d disk publishing (pending todo)
      ∧ Around fingerprint (c.apply d) disk publishing (pending todo)
      ∧ Safe (c.apply d) disk publishing todo
  | .attempt c :: todo => Around fingerprint d disk publishing (pending todo)
      ∧ Safe d disk publishing todo ∧ Safe (c.apply d) disk publishing todo
  | .publishing :: todo => Around fingerprint d disk publishing (pending todo) ∧ Safe d disk true todo
  | .commit v :: todo => Around fingerprint d disk publishing (some v) ∧ Good fingerprint v
      ∧ OnDisk d (some v) ∧ Safe d (some v) false todo
  | .sweep :: todo => publishing = false ∧ OnDisk d disk
      ∧ ∀ d', d'.manifest = d.manifest → (∀ v, disk = some v → ∀ e ∈ v.manifest.segments, ∀ tri,
        d'.files (e.file_name tri) = d.files (e.file_name tri)) → Safe d' disk publishing todo

/-- Views published one after another. -/
def Linked : View → List View → Prop
  | _, [] => True
  | v, w :: views => Publication v w ∧ Good fingerprint w ∧ Linked w views

end

section

variable {fingerprint : Bytes → ℕ} {d : Dir} {disk : Option View} {todo : List Act}

theorem Around.of_disk (h : OnDisk d disk) (p : Bool) (next : Option View) :
    Around fingerprint d disk p next :=
  ⟨fun _ => h, .inl h⟩

variable {p : Bool}

theorem Safe.around (h : Safe fingerprint d disk p todo) :
    Around fingerprint d disk p (pending todo) := by
  cases todo with
  | nil => exact Around.of_disk h.1 _ _
  | cons a todo =>
    cases a with
    | call c | attempt c | publishing | commit v => exact h.1
    | sweep => exact Around.of_disk h.2.1 _ _

/-- A call that leaves the segments on disk alone, before anything else. -/
theorem Safe.call (hd : OnDisk d disk) (hd' : OnDisk (c.apply d) disk)
    (h : Safe fingerprint (c.apply d) disk p todo) : Safe fingerprint d disk p (.call c :: todo) :=
  ⟨.of_disk hd _ _, .of_disk hd' _ _, h⟩

/-- Calls on temporaries, one after another. -/
theorem Safe.calls {calls : List Call} (hcalls : ∀ c ∈ calls, c.temporary = true)
    (hd : OnDisk d disk)
    (h : OnDisk (calls.foldl Call.apply d) disk →
      Safe fingerprint (calls.foldl Call.apply d) disk false todo) :
    Safe fingerprint d disk false (calls.map .call ++ todo) := by
  induction calls generalizing d with
  | nil => exact h hd
  | cons c calls ih =>
    obtain ⟨hc, hcalls⟩ := forall_mem_cons.mp hcalls
    obtain ⟨hm, ht⟩ := Call.temporary_spec hc
    have hd' : OnDisk (c.apply d) disk :=
      hd.frame (Call.apply_manifest hm d) fun v _ e _ tri => Call.apply_files (ht ..)
    exact .call hd hd' (ih hcalls hd' h)

theorem foldl_apply_files {calls : List Call} {n : Name} (h : ∀ c ∈ calls, c.touches n = false) :
    (calls.foldl Call.apply d).files n = d.files n := by
  induction calls generalizing d with
  | nil => rfl
  | cons c calls ih =>
    obtain ⟨hc, hcalls⟩ := forall_mem_cons.mp h
    rw [foldl_cons, ih hcalls, Call.apply_files hc]

/-- What prepared calls leave at the temporaries of a pair. -/
theorem Prepares.files {calls : List Call} {p : WrittenPair} (h : Prepares calls p) (tri : Bool) :
    (calls.foldl Call.apply d).files (.temp p.entry.number tri) = some (.segment (p.file tri)) := by
  obtain ⟨_, _, rfl, hafter⟩ := h tri
  rw [foldl_append, foldl_cons, foldl_apply_files hafter]
  exact update_self ..

/-- **Installing pairs** under names that the manifest on disk does not have.
Each takes its temporaries to its own names and touches nothing else. -/
theorem Safe.install {v : View} {qs : List WrittenPair} (hd : OnDisk d (some v))
    (hready : ∀ q ∈ qs, ∀ tri, d.files (.temp q.entry.number tri) = some (.segment (q.file tri)))
    (hnumbers : qs.Pairwise fun a b => a.entry.number ≠ b.entry.number)
    (hfresh : ∀ q ∈ qs, ∀ e ∈ v.manifest.segments, e.number ≠ q.entry.number)
    (h : ∀ d', OnDisk d' (some v) →
      (∀ q ∈ qs, ∀ tri, d'.files (q.entry.file_name tri) = some (.segment (q.file tri))) →
      (∀ n, (∀ q ∈ qs, ∀ tri, n ≠ q.entry.file_name tri ∧ n ≠ .temp q.entry.number tri) →
        d'.files n = d.files n) → Safe fingerprint d' (some v) false todo) :
    Safe fingerprint d (some v) false (qs.flatMap install_pair ++ todo) := by
  induction qs generalizing d with
  | nil => exact h d hd nofun fun n _ => rfl
  | cons q qs ih =>
    obtain ⟨hq, hqs⟩ := forall_mem_cons.mp hready
    obtain ⟨hn, hnumbers⟩ := pairwise_cons.mp hnumbers
    obtain ⟨hf, hfresh⟩ := forall_mem_cons.mp hfresh
    -- one rename moves a temporary to a name the manifest does not have
    have hrename : ∀ (d : Dir) (tri : Bool), OnDisk d (some v) →
        OnDisk ((Call.rename (.temp q.entry.number tri) (q.entry.file_name tri)).apply d) (some v) := by
      intro d tri hd
      refine hd.frame rfl fun v' hv' e he tri' =>
        Call.apply_files (Call.rename_touches Name.noConfusion fun h => ?_)
      cases hv'
      exact hf e he (file_name_inj h).1.symm
    set d₁ := (Call.rename (.temp q.entry.number false) (q.entry.file_name false)).apply d with hd₁
    set d₂ := (Call.rename (.temp q.entry.number true) (q.entry.file_name true)).apply d₁ with hd₂
    have ho₁ := hrename d false hd
    have ho₂ := hrename d₁ true ho₁
    -- what the two renames do to the files
    have hfalse : d₂.files (q.entry.file_name false) = some (.segment (q.file false)) := by
      rw [hd₂, Call.apply_files (by simp [Call.touches, SegmentEntry.file_name]), hd₁,
        Call.rename_files Name.noConfusion, hq]
    have htrue : d₂.files (q.entry.file_name true) = some (.segment (q.file true)) := by
      rw [hd₂, Call.rename_files Name.noConfusion, hd₁,
        Call.apply_files (by simp [Call.touches, SegmentEntry.file_name]), hq]
    have hother : ∀ n, (∀ tri, n ≠ q.entry.file_name tri ∧ n ≠ .temp q.entry.number tri) →
        d₂.files n = d.files n := by
      intro n hn
      have htouch : ∀ tri, (Call.rename (.temp q.entry.number tri)
          (q.entry.file_name tri)).touches n = false := fun tri =>
        Call.rename_touches (hn tri).2.symm (hn tri).1.symm
      rw [hd₂, Call.apply_files (htouch true), hd₁, Call.apply_files (htouch false)]
    show Safe fingerprint d (some v) false (.call _ :: .call _ :: .call .syncDir :: (qs.flatMap install_pair ++ todo))
    refine .call hd ho₁ (.call ho₁ ho₂ (.call ho₂ ho₂ (ih ho₂ ?_ hnumbers hfresh ?_)))
    · intro q' hq' tri
      show d₂.files _ = _
      rw [hother _ fun tri' => ⟨Name.noConfusion, fun h => ?_⟩]
      · exact hqs q' hq' tri
      · exact hn q' hq' (Name.temp.inj h).1.symm
    · intro d' hd' hfiles hrest
      refine h d' hd' (forall_mem_cons.mpr ⟨fun tri => ?_, hfiles⟩) fun n hne => ?_
      · rw [hrest _ fun q' hq' tri' => ⟨fun h => ?_, Name.noConfusion⟩]
        · show d₂.files _ = _
          cases tri with
          | false => exact hfalse
          | true => exact htrue
        · exact hn q' hq' (file_name_inj h).1
      · obtain ⟨h₁, h₂⟩ := forall_mem_cons.mp hne
        rw [hrest n h₂]
        exact hother n h₁

/-- **Publishing a manifest** whose segments are in place. Until the rename the
last view is on disk, and from the rename on the next. -/
theorem Safe.publish {w : View} (hd : OnDisk d disk) (hw : Good fingerprint w)
    (hfiles : open_pairs d w.manifest = some w)
    (h : ∀ d', OnDisk d' (some w) → (∀ n, n ≠ .manifestTemp → d'.files n = d.files n) →
      Safe fingerprint d' (some w) false todo) :
    Safe fingerprint d disk false (publish_manifest w ++ todo) := by
  have hsame : ∀ c : Call, (∀ n, n ≠ .manifestTemp → c.touches n = false) → c ≠ .renameManifest →
      ∀ d, OnDisk d disk → OnDisk (c.apply d) disk := fun c hc hm d hd =>
    hd.frame (Call.apply_manifest hm d) fun v _ e _ tri => Call.apply_files (hc _ Name.noConfusion)
  have hneg : ∀ n, n ≠ Name.manifestTemp → decide (Name.manifestTemp = n) = false :=
    fun n hn => decide_eq_false (Ne.symm hn)
  set d₁ := (Call.unlink .manifestTemp).apply d with hd₁
  set d₂ := (Call.create .manifestTemp).apply d₁ with hd₂
  set d₃ := (Call.fill .manifestTemp (.manifest w.manifest)).apply d₂ with hd₃
  set d₄ := Call.renameManifest.apply d₃ with hd₄
  have ho₁ : OnDisk d₁ disk := hsame (.unlink .manifestTemp) hneg Call.noConfusion d hd
  have ho₂ : OnDisk d₂ disk := hsame (.create .manifestTemp) hneg Call.noConfusion d₁ ho₁
  have ho₃ : OnDisk d₃ disk := hsame (.fill .manifestTemp _) hneg Call.noConfusion d₂ ho₂
  have hfar : ∀ n, n ≠ Name.manifestTemp → d₄.files n = d.files n := by
    intro n hn
    rw [hd₄, Call.apply_files (c := .renameManifest) (decide_eq_false hn), hd₃,
      Call.apply_files (c := .fill .manifestTemp _) (hneg n hn), hd₂,
      Call.apply_files (c := .create .manifestTemp) (hneg n hn), hd₁,
      Call.apply_files (c := .unlink .manifestTemp) (hneg n hn)]
  have ho₄ : OnDisk d₄ (some w) := by
    refine ⟨?_, (open_pairs_congr fun e _ tri => hfar _ Name.noConfusion).trans hfiles⟩
    have hmt : d₃.files .manifestTemp = some (.manifest w.manifest) := by
      simp [hd₃, Call.apply]
    simp only [hd₄, Call.apply, hmt]
  have haround : Around fingerprint d₄ disk true (some w) :=
    ⟨nofun, .inr ⟨w, rfl, hw, ho₄⟩⟩
  show Safe fingerprint d disk false (.publishing :: .call _ :: .call _ :: .call _ :: .call _
    :: .call _ :: .commit w :: todo)
  refine ⟨.of_disk hd _ _, .call hd ho₁ (.call ho₁ ho₂ (.call ho₂ ho₃ ⟨.of_disk ho₃ _ _, haround,
    haround, haround, haround, hw, ho₄, h d₄ ho₄ hfar⟩))⟩

/-- Unlinking names that the manifest on disk does not have. -/
theorem Safe.attempts {w : View} {ns : List Name} (hd : OnDisk d (some w))
    (hns : ∀ n ∈ ns, ∀ e ∈ w.manifest.segments, ∀ tri, e.file_name tri ≠ n)
    (h : ∀ d', OnDisk d' (some w) → (∀ n, n ∉ ns → d'.files n = d.files n) →
      Safe fingerprint d' (some w) false todo) :
    Safe fingerprint d (some w) false (ns.map (fun n => .attempt (.unlink n)) ++ todo) := by
  induction ns generalizing d with
  | nil => exact h d hd fun n _ => rfl
  | cons n ns ih =>
    obtain ⟨hn, hns⟩ := forall_mem_cons.mp hns
    have hd' : OnDisk ((Call.unlink n).apply d) (some w) :=
      hd.frame rfl fun v hv e he tri => Call.apply_files (decide_eq_false fun heq => by
        cases hv
        exact hn e he tri heq.symm)
    refine ⟨.of_disk hd _ _, ih hd hns fun d₁ hd₁ hf => h d₁ hd₁ fun m hm => ?_,
      ih hd' hns fun d₁ hd₁ hf => h d₁ hd₁ fun m hm => ?_⟩
    · exact hf m fun hmem => hm (.tail _ hmem)
    · rw [hf m fun hmem => hm (mem_cons_of_mem _ hmem)]
      exact Call.apply_files (decide_eq_false fun heq => hm (heq ▸ .head _))

theorem retire_eq (es : List SegmentEntry) :
    retire es = (es.flatMap fun e => [e.file_name false, e.file_name true]).map
      fun n => .attempt (.unlink n) := by
  rw [retire, map_flatMap]
  rfl

/-- **The acts of an operation are safe.** -/
theorem Script.safe {v : View} {ready : List WrittenPair} {views : List View} {todo : List Act}
    (h : Script v ready views todo) {d : Dir} (hd : OnDisk d (some v)) (hv : Good fingerprint v)
    (hlinked : Linked fingerprint v views)
    (hready : ∀ p ∈ ready, ∀ tri, d.files (.temp p.entry.number tri) = some (.segment (p.file tri))) :
    Safe fingerprint d (some v) false todo := by
  induction h generalizing d with
  | done v ready => exact ⟨hd, rfl⟩
  | prepare _ _ htemp hapart hprepares _ ih =>
    refine .calls htemp hd fun hd' => ih hd' hv hlinked fun p hp tri => ?_
    rcases mem_append.mp hp with hp | hp
    · exact (hprepares p hp).files tri
    · rw [foldl_apply_files (hapart p hp tri)]
      exact hready p hp tri
  | @publish v w ready ready' views todo _ hprepared hleft hending _ ih =>
    obtain ⟨hpub, hw, hlinked⟩ := hlinked
    obtain ⟨_, _, _, hsound⟩ := hv
    obtain ⟨_, hps⟩ := hsound.opens
    obtain ⟨_, _, hqs⟩ := hpub.opens
    have hnew : ∀ q ∈ written v w, q ∈ w.pairs ∧ q.entry ∉ v.manifest.segments := fun q hq => by
      have hq := mem_filter.mp hq
      exact ⟨hq.1, of_decide_eq_true hq.2⟩
    have hnumber : ∀ q ∈ written v w, ∀ e ∈ v.manifest.segments, e.number ≠ q.entry.number :=
      fun q hq e he => ne_of_lt ((hsound.consistent.ranges e he).2.2.trans_le
        (hpub.fresh q (hnew q hq).1 (hnew q hq).2))
    have hdistinct : (written v w).Pairwise fun a b => a.entry.number ≠ b.entry.number := by
      have hnums := hpub.consistent.numbers
      rw [hqs.entries, map_map, List.Nodup, pairwise_map] at hnums
      rw [written, hqs.pairs_eq]
      exact hnums.filter _
    -- the manifest on disk is replaced when all its segments are in place
    rw [append_assoc, append_assoc]
    refine .install hd (fun q hq tri => hready q (hprepared q hq) tri) hdistinct hnumber
      fun d₁ hd₁ hfiles₁ hrest₁ => ?_
    have hopen : open_pairs d₁ w.manifest = some w := by
      refine (open_pairs_eq_some hqs).mpr fun p hp tri => ?_
      by_cases he : p.entry ∈ v.manifest.segments
      · exact (open_pairs_eq_some hps).mp hd₁.2 p (hpub.kept p hp he) tri
      · exact hfiles₁ p (mem_filter.mpr ⟨hp, decide_eq_true he⟩) tri
    refine .publish hd₁ hw hopen fun d₂ hd₂ hrest₂ => ?_
    -- what is ready for later has not been touched
    have hkept : ∀ d₃ : Dir, (∀ p ∈ ready', ∀ tri,
        d₃.files (.temp p.entry.number tri) = d₂.files (.temp p.entry.number tri)) →
        ∀ p ∈ ready', ∀ tri, d₃.files (.temp p.entry.number tri) = some (.segment (p.file tri)) := by
      intro d₃ hd₃ p hp tri
      rw [hd₃ p hp tri, hrest₂ _ Name.noConfusion, hrest₁ _ fun q hq tri' =>
        ⟨Name.noConfusion, fun heq => (hleft p hp).2 q hq (Name.temp.inj heq).1.symm⟩]
      exact hready p (hleft p hp).1 tri
    rcases hending with rfl | ⟨rfl, rfl⟩
    · rw [retire_eq]
      refine .attempts hd₂ (fun n hn e he tri heq => ?_) fun d₃ hd₃ hrest₃ =>
        ih hd₃ hw hlinked (hkept d₃ fun p hp tri => hrest₃ _ fun hmem => ?_)
      · obtain ⟨old, hold, hn⟩ := mem_flatMap.mp hn
        obtain ⟨hold, hgone⟩ := mem_filter.mp hold
        have hgone : old ∉ w.manifest.segments := of_decide_eq_true hgone
        have hsame : e.number = old.number := by
          simp only [mem_cons, not_mem_nil, or_false] at hn
          rcases hn with rfl | rfl <;> exact (file_name_inj heq).1
        -- a name still in use is of a segment that was kept, or of a new one
        by_cases he' : e ∈ v.manifest.segments
        · have heq' := inj_on_of_nodup_map hsound.consistent.numbers he' hold hsame
          exact hgone (heq' ▸ he)
        · rw [hqs.entries] at he
          obtain ⟨q, hq, rfl⟩ := mem_map.mp he
          have hq : q ∈ written v w :=
            mem_filter.mpr ⟨hqs.pairs_eq ▸ hq, decide_eq_true he'⟩
          exact hnumber q hq old hold hsame.symm
      · obtain ⟨old, -, hn⟩ := mem_flatMap.mp hmem
        simp only [mem_cons, not_mem_nil, or_false] at hn
        rcases hn with hn | hn <;> cases hn
    · refine ⟨rfl, hd₂, fun d₃ hm hf => ih (hd₂.frame hm hf) hw hlinked nofun⟩

/-- What an operation publishes is linked. -/
theorem Op.published_linked {env : Env} (catalog : CatalogView) {v : View} {op : Op v}
    (hv : Good env.fingerprint v) (hready : op.Ready env) :
    Linked env.fingerprint v (op.published env catalog) := by
  obtain ⟨_, seen, log, hsound⟩ := hv
  obtain ⟨codec', hkept⟩ :=
    Op.published_kept (s := (v, log)) (hsound.cons catalog) (.head _) hready
  -- the induction is on the publications left, from any state before them
  have hall : ∀ (views : List View) (s : View × Log),
      (∀ done, done <+: views →
        Sound env.fingerprint codec' (catalog :: seen) (done.foldl (accept op.read catalog.live) s)) →
      (∀ done w, done ++ [w] <+: views →
        Publication (done.foldl (accept op.read catalog.live) s).1 w) →
      Linked env.fingerprint s.1 views := by
    intro views
    induction views with
    | nil => exact fun _ _ _ => trivial
    | cons w views ih =>
      intro s hs hm
      refine ⟨hm [] w (by simp), ⟨codec', _, _, hs [w] (by simp)⟩,
        ih (accept op.read catalog.live s w) (fun done hdone => ?_) fun done w' hdone => ?_⟩
      · exact hs (w :: done) (cons_prefix_cons.mpr ⟨rfl, hdone⟩)
      · exact hm (w :: done) w' (cons_prefix_cons.mpr ⟨rfl, hdone⟩)
  exact hall _ (v, log) hkept.sound hkept.moves

/-! ## The invariant of a run -/

/-- **The invariant of a run.** -/
def State.Inv (fingerprint : Bytes → ℕ) (σ : State) : Prop :=
  match σ.mem with
  | .closed | .poisoned => ∃ disk, OnDisk σ.dir disk ∧ ∀ v, disk = some v → Good fingerprint v
  | .idle v | .sweeping v _ => OnDisk σ.dir (some v) ∧ Good fingerprint v
  | .busy _ disk publishing todo =>
    (∀ v, disk = some v → Good fingerprint v) ∧ Safe fingerprint σ.dir disk publishing todo

variable {next : Option View}

theorem Around.inv (h : Around fingerprint d disk p next)
    (hdisk : ∀ v, disk = some v → Good fingerprint v) :
    ∃ disk, OnDisk d disk ∧ ∀ v, disk = some v → Good fingerprint v := by
  rcases h.either with h | ⟨w, -, hw, ho⟩
  · exact ⟨disk, h, hdisk⟩
  · exact ⟨some w, ho, fun v hv => Option.some.inj hv ▸ hw⟩

/-- A failed operation leaves the invariant. -/
theorem failed_inv {g p poison : Bool} (h : Around fingerprint d disk p next)
    (hdisk : ∀ v, disk = some v → Good fingerprint v) :
    (⟨d, failed g disk p poison⟩ : State).Inv fingerprint := by
  unfold failed
  split
  · exact ⟨h.settled rfl, hdisk _ rfl⟩
  all_goals exact h.inv hdisk

/-- A file that may be removed is not on disk under a name in use. -/
theorem OnDisk.remove {v : View} {n : Name} (h : OnDisk d (some v)) (hn : Unnamed v n) :
    OnDisk ((Call.unlink n).apply d) (some v) :=
  h.frame rfl fun v' hv' e he tri => Call.apply_files (decide_eq_false fun heq => by
    cases hv'
    exact hn.2 e he tri heq.symm)

/-- An index that covers nothing needs no files. -/
theorem blank_good (incarnation : Bytes) {w : View}
    (h : (manifest_only (View.blank incarnation) (Manifest.empty incarnation)).published = [w]) :
    Good fingerprint w ∧ ∀ d, open_pairs d w.manifest = some w := by
  obtain rfl := head_eq_of_cons_eq h
  refine ⟨⟨.dictionary, [], [], Manifest.empty_consistent incarnation 1,
    ⟨[], rfl, rfl, rfl, nofun⟩, nodup_nil, nofun,
    fun d hd => absurd hd (Nat.not_lt_zero d)⟩, fun d => rfl⟩

/-- **One step keeps the invariant.** -/
theorem Step.inv {σ τ : State} (h : Step fingerprint σ τ) (hσ : σ.Inv fingerprint) :
    τ.Inv fingerprint := by
  cases h with
  | crash =>
    obtain ⟨d, mem⟩ := σ
    cases mem with
    | closed => exact hσ
    | poisoned => exact hσ
    | idle v | sweeping v poison => exact ⟨some v, hσ.1, fun w hw => Option.some.inj hw ▸ hσ.2⟩
    | busy g disk p todo => exact hσ.2.around.inv hσ.1
  | @reopen d v found =>
    obtain ⟨disk, hdisk, hgood⟩ := hσ
    obtain rfl := hdisk.unique found
    refine ⟨fun w hw => Option.some.inj hw ▸ hgood v rfl, rfl, found, fun d' hm hf => ?_⟩
    exact ⟨found.frame hm hf, rfl⟩
  | @discard d disk found catalog w view =>
    obtain ⟨_, hdisk, hgood⟩ := hσ
    obtain rfl := hdisk.unique found
    obtain ⟨hw, hopen⟩ := blank_good catalog.incarnation view
    refine ⟨hgood, .publish found hw (hopen d) fun d' hd' _ => ⟨rfl, hd', fun d'' hm hf => ?_⟩⟩
    exact ⟨hd'.frame hm hf, rfl⟩
  | @start d v _ hash catalog _ _ ready todo script =>
    subst hash
    refine ⟨fun w hw => Option.some.inj hw ▸ hσ.2, ?_⟩
    exact script.safe hσ.1 hσ.2 (Op.published_linked catalog hσ.2 ready) nofun
  | call => exact ⟨hσ.1, hσ.2.2.2⟩
  | attempt left =>
    rcases left with rfl | rfl
    · exact ⟨hσ.1, hσ.2.2.1⟩
    · exact ⟨hσ.1, hσ.2.2.2⟩
  | publishing => exact ⟨hσ.1, hσ.2.2⟩
  | commit => exact ⟨fun w hw => Option.some.inj hw ▸ hσ.2.2.1, hσ.2.2.2.2⟩
  | sweepOne unnamed =>
    obtain ⟨hp, ho, hall⟩ := hσ.2
    refine ⟨hσ.1, hp, ho.remove unnamed, fun d' hm hf => hall d' hm fun v hv e he tri => ?_⟩
    rw [hf v hv e he tri]
    refine Call.apply_files (c := .unlink _) (decide_eq_false fun heq => ?_)
    cases hv
    exact unnamed.2 e he tri heq.symm
  | sweepDone => exact ⟨hσ.1, hσ.2.2.2 _ rfl fun _ _ _ _ _ => rfl⟩
  | finish => exact ⟨hσ.2.1, hσ.1 _ rfl⟩
  | fail left =>
    rcases left with rfl | ⟨c, _, rfl, rfl⟩
    · exact failed_inv hσ.2.around hσ.1
    · exact failed_inv hσ.2.2.1 hσ.1
  | cleanOne unnamed => exact ⟨hσ.1.remove unnamed, hσ.2⟩
  | cleanFailed => exact ⟨_, hσ.1, fun w hw => Option.some.inj hw ▸ hσ.2⟩
  | @cleanDone d v poison =>
    cases poison with
    | false => exact hσ
    | true => exact ⟨some v, hσ.1, fun w hw => Option.some.inj hw ▸ hσ.2⟩

theorem OnDisk.manifest_eq (h : OnDisk d disk) : d.manifest = disk.map View.manifest := by
  cases disk with
  | none => exact h
  | some v => exact h.1

theorem Around.manifest_eq (h : Around fingerprint d disk p next) :
    d.manifest = disk.map View.manifest ∨ ∃ w, next = some w ∧ d.manifest = some w.manifest := by
  rcases h.either with h | ⟨w, hw, -, ho⟩
  · exact .inl h.manifest_eq
  · exact .inr ⟨w, hw, ho.1⟩

/-- The manifest on disk after one more step of an operation. -/
theorem Step.manifest_eq {g p : Bool} {τ : State} (h : Step fingerprint ⟨d, .busy g disk p todo⟩ τ)
    (hsafe : Safe fingerprint d disk p todo) :
    τ.dir.manifest = disk.map View.manifest
      ∨ ∃ w, pending todo = some w ∧ τ.dir.manifest = some w.manifest := by
  cases h with
  | crash => exact hsafe.around.manifest_eq
  | call => exact hsafe.2.1.manifest_eq
  | attempt left =>
    rcases left with rfl | rfl
    · exact hsafe.1.manifest_eq
    · exact hsafe.2.2.around.manifest_eq
  | publishing => exact hsafe.1.manifest_eq
  | commit => exact hsafe.1.manifest_eq
  | sweepOne unnamed => exact .inl (hsafe.2.1.remove unnamed).manifest_eq
  | sweepDone => exact hsafe.around.manifest_eq
  | finish => exact hsafe.around.manifest_eq
  | fail left =>
    rcases left with rfl | ⟨c, _, rfl, rfl⟩
    · exact hsafe.around.manifest_eq
    · exact hsafe.2.1.manifest_eq

/-- Every state of a run keeps the invariant. -/
theorem Runs.inv {σ : State} (h : Runs fingerprint σ) : σ.Inv fingerprint := by
  induction h with
  | start _ => exact ⟨none, rfl, nofun⟩
  | step _ hstep ih => exact hstep.inv ih

/-! ## Uninterrupted operations -/

/-- The view an operation ends with. -/
def committed (v : View) : List Act → View
  | [] => v
  | .commit w :: todo => committed w todo
  | _ :: todo => committed v todo

theorem committed_append {v : View} {acts : List Act} (h : pending acts = none) :
    committed v (acts ++ todo) = committed v todo := by
  induction acts with
  | nil => rfl
  | cons a acts ih =>
    cases a with
    | commit w => cases h
    | call c | attempt c | publishing | sweep => exact ih h

theorem pending_eq_none {acts : List Act} (h : ∀ w, Act.commit w ∉ acts) : pending acts = none := by
  induction acts with
  | nil => rfl
  | cons a acts ih =>
    have hrest := ih fun w hw => h w (.tail _ hw)
    cases a with
    | commit w => exact absurd (.head _) (h w)
    | call c | attempt c | publishing | sweep => exact hrest

/-- A script ends with the last view it publishes. -/
theorem Script.committed_eq {v : View} {ready : List WrittenPair} {views : List View}
    (h : Script v ready views todo) : committed v todo = views.getLastD v := by
  induction h with
  | done v ready => rfl
  | prepare _ _ _ _ _ _ ih =>
    rw [committed_append (pending_eq_none fun w hw => ?_), ih]
    obtain ⟨c, -, hc⟩ := mem_map.mp hw
    cases hc
  | @publish v w ready _ views todo after _ _ hending _ ih =>
    have hinstall : pending ((written v w).flatMap install_pair) = none :=
      pending_eq_none fun w' hw' => by
        obtain ⟨q, -, hq⟩ := mem_flatMap.mp hw'
        simp [install_pair] at hq
    have hafter : pending after = none := pending_eq_none fun w' hw' => by
      rcases hending with rfl | ⟨rfl, -⟩
      · obtain ⟨e, -, he⟩ := mem_flatMap.mp hw'
        simp at he
      · simp at hw'
    rw [append_assoc, append_assoc, committed_append hinstall]
    show committed w (after ++ todo) = _
    rw [committed_append hafter, ih, getLastD_cons]

/-- Views that are linked can be published. -/
theorem Linked.script {v : View} {views : List View} (h : Linked fingerprint v views) :
    ∃ todo, Script v [] views todo := by
  induction views generalizing v with
  | nil => exact ⟨[], .done v []⟩
  | cons w views ih =>
    obtain ⟨hpub, -, hrest⟩ := h
    obtain ⟨todo, htodo⟩ := ih hrest
    obtain ⟨_, _, hqs⟩ := hpub.opens
    have hdistinct : (written v w).Pairwise fun a b => a.entry.number ≠ b.entry.number := by
      have hnums := hpub.consistent.numbers
      rw [hqs.entries, map_map, List.Nodup, pairwise_map] at hnums
      rw [written, hqs.pairs_eq]
      exact hnums.filter _
    set fills : WrittenPair → List Call := fun p =>
      [.fill (.temp p.entry.number false) (.segment p.segment),
       .fill (.temp p.entry.number true) (.segment p.trigram)] with hfills
    refine ⟨_, .prepare ((written v w).flatMap fills) (written v w) (fun c hc => ?_)
      nofun (fun p hp tri => ?_)
      (.publish _ (fun p hp => mem_append_left _ hp) (fun p hp => by cases hp) (.inl rfl) htodo)⟩
    · obtain ⟨p, -, hc⟩ := mem_flatMap.mp hc
      simp only [hfills, mem_cons, not_mem_nil, or_false] at hc
      rcases hc with rfl | rfl <;> rfl
    · obtain ⟨l₁, l₂, hsplit⟩ := append_of_mem hp
      rw [hsplit] at hdistinct ⊢
      have hlater : ∀ q ∈ l₂, p.entry.number ≠ q.entry.number :=
        (pairwise_cons.mp (pairwise_append.mp hdistinct).2.1).1
      have huntouched : ∀ c ∈ l₂.flatMap fills, c.touches (.temp p.entry.number tri) = false := by
        intro c hc
        obtain ⟨q, hq, hc⟩ := mem_flatMap.mp hc
        simp only [hfills, mem_cons, not_mem_nil, or_false] at hc
        rcases hc with rfl | rfl <;>
          exact decide_eq_false fun heq => hlater q hq (Name.temp.inj heq).1.symm
      rw [flatMap_append, flatMap_cons]
      cases tri with
      | false =>
        refine ⟨l₁.flatMap fills, .fill (.temp p.entry.number true) (.segment p.trigram) :: l₂.flatMap fills,
          rfl, forall_mem_cons.mpr ⟨?_, huntouched⟩⟩
        exact decide_eq_false fun heq => by cases (Name.temp.inj heq).2
      | true =>
        refine ⟨l₁.flatMap fills ++ [.fill (.temp p.entry.number false) (.segment p.segment)],
          l₂.flatMap fills, ?_, huntouched⟩
        simp [hfills, WrittenPair.file]

/-- Acts that nothing interrupts run to their end. -/
theorem Runs.finishes {g p : Bool} {v : View} (h : Runs fingerprint ⟨d, .busy g (some v) p todo⟩) :
    ∃ d', Runs fingerprint ⟨d', .idle (committed v todo)⟩ := by
  induction todo generalizing d v p with
  | nil => exact ⟨d, .step h .finish⟩
  | cons a todo ih =>
    cases a with
    | call c => exact ih (.step h .call)
    | attempt c => exact ih (.step h (.attempt (.inr rfl)))
    | publishing => exact ih (.step h .publishing)
    | commit w => exact ih (.step h .commit)
    | sweep => exact ih (.step h .sweepDone)

/-- **An operation that nothing interrupts completes**, with the last view it
publishes. -/
theorem Runs.completes {v : View} (h : Runs fingerprint ⟨d, .idle v⟩) {env : Env}
    (hash : env.fingerprint = fingerprint) (catalog : CatalogView) {op : Op v}
    (hopen : ∀ readable, op ≠ .openIndex readable) (hready : op.Ready env) :
    ∃ d', Runs fingerprint ⟨d', .idle ((op.published env catalog).getLastD v)⟩ := by
  subst hash
  obtain ⟨_, hscript⟩ := (Op.published_linked catalog h.inv.2 hready).script
  obtain ⟨d', hd'⟩ := (Runs.step h (.start rfl catalog hopen hready hscript)).finishes
  exact ⟨d', hscript.committed_eq ▸ hd'⟩

end

/-- **Publication is safe against crashes and failures.** In every state of
every run, with crashes and errors at any step:

the index on disk opens: every segment file the manifest on disk names is
there, complete;

within an operation, and after the step that interrupts it, the manifest on
disk is the one before the publication under way or the one after it;

what the cleanup after an error may remove is no file that the manifest on
disk names. -/
theorem Runs.crash_safe {fingerprint : Bytes → ℕ} {σ : State} (h : Runs fingerprint σ) :
    (∀ m, σ.dir.manifest = some m → ∃ v, open_pairs σ.dir m = some v
      ∧ ∀ e ∈ m.segments, ∀ tri, ∃ s, σ.dir.files (e.file_name tri) = some (.segment s))
      ∧ (∀ g disk p todo, σ.mem = .busy g disk p todo → ∀ τ, τ = σ ∨ Step fingerprint σ τ →
        τ.dir.manifest = disk.map View.manifest
          ∨ ∃ w, pending todo = some w ∧ τ.dir.manifest = some w.manifest)
      ∧ ∀ v, (∃ poison, σ.mem = .sweeping v poison) ∨ (∃ g p todo, σ.mem = .busy g (some v) p (.sweep :: todo)) →
        ∀ n, Unnamed v n → ∀ m, σ.dir.manifest = some m →
          ∀ e ∈ m.segments, ∀ tri, e.file_name tri ≠ n := by
  have hinv := h.inv
  refine ⟨fun m hm => ?_, fun g disk p todo hmem τ hτ => ?_, fun v hv n hn m hm e he tri => ?_⟩
  · -- what a crash would leave
    obtain ⟨disk, hdisk, hgood⟩ := (Step.crash σ).inv hinv
    have hmanifest := hdisk.manifest_eq.symm.trans hm
    obtain ⟨v, rfl, rfl⟩ := Option.map_eq_some_iff.mp hmanifest
    obtain ⟨_, _, _, hsound⟩ := hgood v rfl
    obtain ⟨_, hps⟩ := hsound.opens
    refine ⟨v, hdisk.2, fun e he tri => ?_⟩
    rw [hps.entries] at he
    obtain ⟨p, hp, rfl⟩ := mem_map.mp he
    exact ⟨_, (open_pairs_eq_some hps).mp hdisk.2 p (hps.pairs_eq ▸ hp) tri⟩
  · obtain ⟨d, mem⟩ := σ
    obtain rfl : mem = .busy g disk p todo := hmem
    rcases hτ with rfl | hstep
    · exact hinv.2.around.manifest_eq
    · exact hstep.manifest_eq hinv.2
  · obtain ⟨d, mem⟩ := σ
    have hdisk : OnDisk d (some v) := by
      rcases hv with ⟨poison, hmem⟩ | ⟨g, p, todo, hmem⟩
      · obtain rfl : mem = .sweeping v poison := hmem
        exact hinv.1
      · obtain rfl : mem = .busy g (some v) p (.sweep :: todo) := hmem
        exact hinv.2.2.1
    have heq : v.manifest = m := Option.some.inj (hdisk.1.symm.trans hm)
    exact hn.2 e (heq ▸ he) tri

/-- The view that opening an empty directory publishes. -/
def firstView : View :=
  { View.blank [7] with manifest := { Manifest.empty [7] with sequence := 1 } }

/-- Opening an empty directory. -/
theorem first_view_runs : ∃ d, Runs List.length ⟨d, .idle firstView⟩ := by
  have hnone : OnDisk ⟨fun _ => none, none⟩ none := rfl
  have h := Runs.step (Runs.start fun _ => none)
    (@Step.discard List.length _ _ hnone twoDocuments firstView rfl)
  exact ⟨_, (((((((((h.step .publishing).step .call).step .call).step .call).step .call).step
    .call).step .commit).step .sweepDone).step .finish)⟩

/-- A run that opens an empty directory and follows two documents. -/
theorem two_documents_survive :
    ∃ σ v, Runs List.length σ ∧ σ.mem = .idle v ∧ v.manifest.segments.length = 1
      ∧ ∀ m, σ.dir.manifest = some m → ∃ v, open_pairs σ.dir m = some v
        ∧ ∀ e ∈ m.segments, ∀ tri, ∃ s, σ.dir.files (e.file_name tri) = some (.segment s) := by
  obtain ⟨d, hd⟩ := first_view_runs
  obtain ⟨_, hd'⟩ := @Runs.completes List.length d firstView hd plainEnv rfl twoDocuments
    (.follow oneReadable { bytes := 1000, buffer := 1000, segments := 1 })
    nofun nofun
  exact ⟨_, _, hd', rfl, by decide +kernel, hd'.crash_safe.1⟩

end Ferret
