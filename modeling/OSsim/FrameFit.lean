import OSsim.Exhaust

/-!
# Frame numbers and the fields of a page table entry

`MEMPHY_format` lists as many frames as the configured size holds, while an entry
keeps 13 bits of a RAM frame number and 21 bits of a swap frame number. Frames only
return to a free list through these fields or unchanged, so on devices within the
limits every frame ever handed out is decoded as it was encoded; on larger devices a
run hands out one that is not.
-/

namespace OSsim

structure FramesFit (c : Pcb) : Prop where
  ram : ∀ f ∈ c.mram.freeFpList, f < 2 ^ 13
  swp : ∀ w ∈ (c.mswp activeMswpId).freeFpList, w < 2 ^ 21

namespace FramesFit
variable {c c' : Pcb} {f k : ℕ} (h : FramesFit c)
include h

theorem stuck (hs : Pcb.Stuck c c') : FramesFit c' := by
  cases hs with
  | noVictim => exact h
  | swapFull => exact ⟨h.ram, h.swp⟩

theorem grabbed (hg : Pcb.Grabbed c f c') : FramesFit c' ∧ f < 2 ^ 13 := by
  cases hg with
  | free hm =>
    refine ⟨⟨fun x hx => h.ram x ?_, h.swp⟩, h.ram f ?_⟩
    · rw [hm]
      exact List.mem_cons_of_mem _ hx
    · rw [hm]
      exact List.mem_cons_self
  | evict hm hf hs =>
    refine ⟨⟨?_, ?_⟩, pagingFpn_lt _⟩
    · simp only [Pcb.evicted, swapCpPage_fst_freeFpList]
      exact h.ram
    · simp only [Pcb.evicted, Function.update_self, swapCpPage_snd_freeFpList]
      intro x hx
      apply h.swp
      rw [hs]
      exact List.mem_cons_of_mem _ hx

theorem allocPagesLoop (n : ℕ) {l : List ℕ} (hl : ∀ x ∈ l, x < 2 ^ 13) :
    FramesFit (Pcb.allocPagesLoop n l c).2 := by
  induction n generalizing c l with
  | zero => exact h
  | succ n ih =>
    rcases c.grabFrame_cases with ⟨c1, hg, hst⟩ | ⟨f, c1, hg, hgr⟩
    · have h1 := h.stuck hst
      simp only [Pcb.allocPagesLoop, hg]
      refine ⟨fun x hx => ?_, h1.swp⟩
      rw [foldl_putFreefp] at hx
      rcases List.mem_append.mp hx with hx | hx
      · exact hl x (List.mem_reverse.mp hx)
      · exact h1.ram x hx
    · obtain ⟨h1, hf⟩ := h.grabbed hgr
      simp only [Pcb.allocPagesLoop, hg]
      apply ih h1
      intro x hx
      rcases List.mem_cons.mp hx with rfl | hx
      · exact hf
      · exact hl x hx

theorem putSwap (t : ℕ) (mp : Memphy) (hmp : mp.freeFpList = (c.mswp t).freeFpList) (pte : Pte)
    (w : ℕ) (hw : w ∈ (Function.update c.mswp t (mp.putFreefp (pagingPteSwp pte))
      activeMswpId).freeFpList) : w < 2 ^ 21 := by
  by_cases ht : activeMswpId = t
  · subst ht
    rw [Function.update_self, Memphy.putFreefp, hmp] at hw
    rcases List.mem_cons.mp hw with rfl | hw
    · exact pagingPteSwp_lt pte
    · exact h.swp w hw
  · rw [Function.update_of_ne ht] at hw
    exact h.swp w hw

theorem fault {r : Option ℕ} (hf : Pcb.Fault c k r c') : FramesFit c' := by
  cases hf with
  | unmapped => exact h
  | resident => exact h
  | stuck _ _ hst => exact h.stuck hst
  | loaded _ _ hgr =>
    have h1 := (h.grabbed hgr).1
    refine ⟨?_, fun w hw => h1.putSwap _ _ (swapCpPage_fst_freeFpList _ _ _ _) _ w hw⟩
    simp only [Pcb.swappedIn, swapCpPage_snd_freeFpList]
    exact h1.ram

theorem pgGetval (addr : ℤ) : FramesFit (c.pgGetval addr).2 := by
  have h1 := h.fault (c.pgGetpage_cases (pagingPgn addr))
  rcases hr : c.pgGetpage (pagingPgn addr) with ⟨_ | x, c1⟩
  · simp only [hr] at h1
    simp only [Pcb.pgGetval, hr]
    exact h1
  · simp only [hr] at h1
    simp only [Pcb.pgGetval, hr]
    exact ⟨by rw [Memphy.read_freeFpList]; exact h1.ram, h1.swp⟩

theorem pgSetval (addr : ℤ) (value : Byte) : FramesFit (c.pgSetval addr value).2 := by
  have h1 := h.fault (c.pgGetpage_cases (pagingPgn addr))
  rcases hr : c.pgGetpage (pagingPgn addr) with ⟨_ | x, c1⟩
  · simp only [hr] at h1
    simp only [Pcb.pgSetval, hr]
    exact h1
  · simp only [hr] at h1
    simp only [Pcb.pgSetval, hr]
    exact ⟨by rw [Memphy.write_freeFpList]; exact h1.ram, h1.swp⟩

theorem freePage (k : ℕ) : FramesFit (c.freePage k) := by
  simp only [Pcb.freePage]
  split_ifs with hp hsw
  · exact ⟨h.ram, fun w hw => h.putSwap _ _ rfl _ w hw⟩
  · refine ⟨fun f hf => ?_, h.swp⟩
    rcases List.mem_cons.mp hf with rfl | hf
    · exact pagingFpn_lt _
    · exact h.ram f hf
  · exact h

theorem foldl_freePage (l : List ℕ) : FramesFit (l.foldl Pcb.freePage c) := by
  induction l generalizing c with
  | nil => exact h
  | cons k l ih => exact ih (h.freePage k)

theorem freePcbMemph : FramesFit c.freePcbMemph := by
  rw [Pcb.freePcbMemph]
  exact h.foldl_freePage _

theorem of_devices (hr : c'.mram.freeFpList = c.mram.freeFpList)
    (hs : (c'.mswp activeMswpId).freeFpList = (c.mswp activeMswpId).freeFpList) : FramesFit c' :=
  ⟨by rw [hr]; exact h.ram, by rw [hs]; exact h.swp⟩

theorem caller {ι : Type*} (mm : ι → Option Mm) :
    FramesFit ((⟨c.mram, c.mswp, mm⟩ : Kernel ι).caller initMm) := ⟨h.ram, h.swp⟩

theorem allocPagesRange {n : ℤ} {r : Option (List ℕ)} (ha : c.allocPagesRange n = (r, c')) :
    FramesFit c' := by
  have h1 := h.allocPagesLoop n.toNat (l := []) fun x hx => absurd hx List.not_mem_nil
  rw [← Pcb.allocPagesRange, ha] at h1
  exact h1

theorem effect {v : VmArea} {i : Instr} {o : Outcome} (he : Pcb.Effect c v i o c') :
    FramesFit c' := by
  cases he with
  | refused => exact h
  | outOfFrames _ _ ha => exact h.allocPagesRange ha
  | placed => exact h.of_devices rfl rfl
  | allocGrown _ _ _ _ ha _ => exact (h.allocPagesRange ha).of_devices rfl rfl
  | grown _ _ ha => exact (h.allocPagesRange ha).of_devices rfl rfl
  | freed => exact h.of_devices rfl rfl
  | reads => exact h.pgGetval _
  | writes => exact h.pgSetval _ _

theorem acquires (hc : Relation.ReflTransGen (fun c c' => ∃ f, Pcb.Grabbed c f c') c c') :
    FramesFit c' := by
  induction hc with
  | refl => exact h
  | tail _ hg ih =>
    obtain ⟨f, hg⟩ := hg
    exact (ih.grabbed hg).1

end FramesFit

namespace Kernel
variable {ι : Type*} [DecidableEq ι] {memramsz : ℤ} {memswpsz : ℕ → ℤ}
  {ops : List (Op ι)} {s : Kernel ι} {f w : ℕ}

theorem framesFit_step (hp : s.All fun mm => ∃ v, Packed mm v) (h : FramesFit (s.caller initMm))
    (op : Op ι) : FramesFit ((s.step op).2.caller initMm) := by
  have hs := s.step_cases op
  generalize (s.step op).2 = s' at hs ⊢
  cases hs with
  | idle => exact h
  | created => exact h
  | @executed p mm i hmm =>
    obtain ⟨v, hv⟩ := hp p mm hmm
    have h1 : FramesFit (s.caller mm) := h.of_devices rfl rfl
    have he := Space.exec_cases (c := s.caller mm) hv.space i
    exact (h1.effect he).of_devices rfl rfl
  | @released p mm hmm =>
    have h1 : FramesFit (s.caller mm) := h.of_devices rfl rfl
    exact h1.freePcbMemph.caller _

theorem run_framesFit (hram : framesOf memramsz ≤ 2 ^ 13) (hswp : framesOf (memswpsz 0) ≤ 2 ^ 21)
    (hrun : Run Next (boot memramsz memswpsz) ops s) : FramesFit (s.caller initMm) := by
  have hboot : FramesFit ((boot memramsz memswpsz : Kernel ι).caller initMm) := by
    refine ⟨fun f hf => ?_, fun w hw => ?_⟩
    · simp only [caller, boot, Memphy.fresh_freeFpList, List.mem_range] at hf
      omega
    · simp only [caller, boot, Memphy.fresh_freeFpList, List.mem_range, activeMswpId] at hw
      omega
  refine (hrun.invariant (fun s => (s.All fun mm => ∃ v, Packed mm v) ∧
    FramesFit (s.caller initMm)) ⟨all_boot _ _ _, hboot⟩ ?_).2
  intro s op s' hconj hn
  obtain ⟨hp, h⟩ := hconj
  refine ⟨all_packed_step s op s' hp hn, ?_⟩
  rw [Next] at hn
  subst hn
  exact framesFit_step hp h op

variable (ι) in
/-- A call on the way of some run, after any number of frames it has already
acquired, gets frame `f` from the free list of RAM. -/
def HandsOutRam (memramsz : ℤ) (memswpsz : ℕ → ℤ) (f : ℕ) : Prop :=
  ∃ (ops : List (Op ι)) (s : Kernel ι) (p : ι) (mm : Mm) (c : Pcb) (mp : Memphy),
    Run Next (boot memramsz memswpsz) ops s ∧ s.mm p = some mm ∧
    Relation.ReflTransGen (fun c c' => ∃ f, Pcb.Grabbed c f c') (s.caller mm) c ∧
    c.mram.getFreefp = some (f, mp)

variable (ι) in
def HandsOutSwp (memramsz : ℤ) (memswpsz : ℕ → ℤ) (w : ℕ) : Prop :=
  ∃ (ops : List (Op ι)) (s : Kernel ι) (p : ι) (mm : Mm) (c : Pcb) (mp : Memphy),
    Run Next (boot memramsz memswpsz) ops s ∧ s.mm p = some mm ∧
    Relation.ReflTransGen (fun c c' => ∃ f, Pcb.Grabbed c f c') (s.caller mm) c ∧
    c.mram.freeFpList = [] ∧ c.mm.fifoPgn ≠ [] ∧
    (c.mswp activeMswpId).getFreefp = some (w, mp)

theorem mem_of_getFreefp {mp mp' : Memphy} (h : mp.getFreefp = some (f, mp')) :
    f ∈ mp.freeFpList := by
  cases hl : mp.freeFpList with
  | nil => simp [Memphy.getFreefp, hl] at h
  | cons x rest =>
    simp only [Memphy.getFreefp, hl, Option.some.injEq, Prod.mk.injEq] at h
    rw [h.1]
    exact List.mem_cons_self

theorem handsOutRam_lt (hram : framesOf memramsz ≤ 2 ^ 13) (hswp : framesOf (memswpsz 0) ≤ 2 ^ 21)
    (h : HandsOutRam ι memramsz memswpsz f) : f < 2 ^ 13 := by
  obtain ⟨ops, s, p, mm, c, mp, hrun, _, hc, hg⟩ := h
  have h1 : FramesFit (s.caller mm) := (run_framesFit hram hswp hrun).of_devices rfl rfl
  exact (h1.acquires hc).ram f (mem_of_getFreefp hg)

theorem handsOutSwp_lt (hram : framesOf memramsz ≤ 2 ^ 13) (hswp : framesOf (memswpsz 0) ≤ 2 ^ 21)
    (h : HandsOutSwp ι memramsz memswpsz w) : w < 2 ^ 21 := by
  obtain ⟨ops, s, p, mm, c, mp, hrun, _, hc, _, _, hg⟩ := h
  have h1 : FramesFit (s.caller mm) := (run_framesFit hram hswp hrun).of_devices rfl rfl
  exact (h1.acquires hc).swp w (mem_of_getFreefp hg)

omit [DecidableEq ι] in
theorem getFreefp_drop {mp : Memphy} {n k : ℕ} (hl : mp.freeFpList = (List.range n).drop k)
    (hk : k < n) : ∃ mp', mp.getFreefp = some (k, mp') := by
  have hcons : (List.range n).drop k = k :: (List.range n).drop (k + 1) := by
    rw [List.drop_eq_getElem_cons (by rw [List.length_range]; exact hk), List.getElem_range]
  exact ⟨_, by rw [Memphy.getFreefp, hl, hcons]⟩

theorem handsOutRam_large (p : ι) (hram : 2 ^ 13 < framesOf memramsz) :
    HandsOutRam ι memramsz memswpsz (2 ^ 13) := by
  obtain ⟨ops, s, mm, v, hrun, hp, hf⟩ := exists_filled memramsz memswpsz p
    (show 0 < framesOf memramsz by omega) (2 ^ 13) (by omega) (by decide)
  obtain ⟨mp, hg⟩ := getFreefp_drop hf.ram hram
  exact ⟨ops, s, p, mm, _, mp, hrun, hp, .refl, hg⟩

theorem handsOutSwp_large (p : ι) (h₀ : 0 < framesOf memramsz) (hram : framesOf memramsz ≤ 2 ^ 13)
    (hswp : 2 ^ 21 < framesOf (memswpsz 0)) : HandsOutSwp ι memramsz memswpsz (2 ^ 21) := by
  obtain ⟨ops, s, mm, v, hrun, hp, hf⟩ := exists_filled memramsz memswpsz p h₀
    (framesOf memramsz + 2 ^ 21) (by omega) (by omega)
  have hswp' := hf.swp
  rw [Nat.add_sub_cancel_left] at hswp'
  obtain ⟨mp, hg⟩ := getFreefp_drop hswp' hswp
  refine ⟨ops, s, p, mm, _, mp, hrun, hp, .refl, ?_, hf.fifo (by omega), hg⟩
  rw [hf.ram, List.drop_eq_nil_of_le (by rw [List.length_range]; omega)]

/-- For an accepted memory configuration, every frame ever handed out is decoded from
every entry as it was encoded, and distinct frames stay distinct, exactly if RAM has
at most 8192 frames and the active swap device at most 2097152. -/
theorem frames_representable_iff [Inhabited ι] (hacc : AcceptedMemory memramsz memswpsz) :
    ((∀ f, HandsOutRam ι memramsz memswpsz f → ∀ pte, pagingFpn (pteSetFpn pte f) = f) ∧
      (∀ w, HandsOutSwp ι memramsz memswpsz w → ∀ pte,
        pagingPteSwp (pteSetSwap pte activeMswpId w) = w ∧
          pagingPteSwptyp (pteSetSwap pte activeMswpId w) = activeMswpId) ∧
      (∀ f f', HandsOutRam ι memramsz memswpsz f → HandsOutRam ι memramsz memswpsz f' → f ≠ f' →
        ∀ pte pte', pagingFpn (pteSetFpn pte f) ≠ pagingFpn (pteSetFpn pte' f')) ∧
      (∀ w w', HandsOutSwp ι memramsz memswpsz w → HandsOutSwp ι memramsz memswpsz w' → w ≠ w' →
        ∀ pte pte', pagingPteSwp (pteSetSwap pte activeMswpId w) ≠
          pagingPteSwp (pteSetSwap pte' activeMswpId w'))) ↔
      memramsz / 256 ≤ 8192 ∧ memswpsz 0 / 256 ≤ 2 ^ 21 := by
  have hr := framesOf_eq hacc.ramLe
  have hw := framesOf_eq hacc.swpLe
  constructor
  · intro hconj
    obtain ⟨hram, hswp, _, _⟩ := hconj
    have hle : framesOf memramsz ≤ 2 ^ 13 := by
      by_contra hlt
      have hbad := hram _ (handsOutRam_large (default : ι) (by omega)) 0
      have hfit := pagingFpn_lt (pteSetFpn 0 (2 ^ 13))
      omega
    have hle' : framesOf (memswpsz 0) ≤ 2 ^ 21 := by
      by_contra hlt
      have hpos : 0 < framesOf memramsz := by
        have := hacc.ramLe
        simp only [pagingPagesz] at this
        omega
      have hbad := (hswp _ (handsOutSwp_large (default : ι) hpos hle (by omega)) 0).1
      have hfit := pagingPteSwp_lt (pteSetSwap 0 activeMswpId (2 ^ 21))
      omega
    omega
  · intro hconj
    obtain ⟨h1, h2⟩ := hconj
    have hram : framesOf memramsz ≤ 2 ^ 13 := by omega
    have hswp : framesOf (memswpsz 0) ≤ 2 ^ 21 := by omega
    have hdec : ∀ f, HandsOutRam ι memramsz memswpsz f → ∀ pte, pagingFpn (pteSetFpn pte f) = f :=
      fun f hf => pagingFpn_pteSetFpn (handsOutRam_lt hram hswp hf)
    have hdec' : ∀ w, HandsOutSwp ι memramsz memswpsz w → ∀ pte,
        pagingPteSwp (pteSetSwap pte activeMswpId w) = w :=
      fun w hw pte => pagingPteSwp_pteSetSwap (handsOutSwp_lt hram hswp hw) pte _
    refine ⟨hdec, fun w hw pte => ⟨hdec' w hw pte, pagingPteSwptyp_pteSetSwap (by decide) _ _⟩,
      ?_, ?_⟩
    · intro f f' hf hf' hne pte pte'
      rw [hdec f hf, hdec f' hf']
      exact hne
    · intro w w' hw hw' hne pte pte'
      rw [hdec' w hw, hdec' w' hw']
      exact hne

theorem frames_representable_small :
    AcceptedMemory 512 (fun _ => 256) ∧ ∀ f, HandsOutRam Unit 512 (fun _ => 256) f →
      ∀ pte, pagingFpn (pteSetFpn pte f) = f := by
  have hacc : AcceptedMemory 512 (fun _ => 256) :=
    ⟨by decide, by decide, by decide, by decide, by decide⟩
  exact ⟨hacc, ((frames_representable_iff hacc).mpr ⟨by decide, by decide⟩).1⟩

theorem frame_truncated :
    AcceptedMemory 2097408 (fun _ => 256) ∧ HandsOutRam Unit 2097408 (fun _ => 256) 8192 ∧
      pagingFpn (pteSetFpn 0 8192) = 0 :=
  ⟨⟨by decide, by decide, by decide, by decide, by decide⟩, handsOutRam_large () (by decide),
    by decide⟩

end Kernel
end OSsim
