import UbbdKernel.Service.Messages

/-!
# The data of requests on their way

`Shows s t bss`: the data pages of the request `t` hold the segments `bss`.
They show what was copied for a WRITE until they are given back, and what the
answer to a READ says, from the moment it is written (`Transfer`): the backend
writes to the pages of a READ it has not answered, which are nobody else's.
-/

namespace Ubbd.Service

open Pages (Page)
open Queue (Pc By ThStep WkStep Keeping Pending Same)

variable {C : Conf} {s s' : State C}

/-- The data pages of the request hold these segments. -/
def Shows (s : State C) (t : C.Tag) (bss : List (List UInt8)) : Prop :=
  ∀ k b, bss[k]? = some b → ∃ bv page, (s.queue.rqs t).req.segments[k]? = some bv ∧
    reqPage s t k = some page ∧ s.data.bytes page bv.off bv.len = b

/-- What an answer has to do with its request. -/
def Answered (s : State C) (t : C.Tag) (d : Reply) : Prop :=
  ((s.queue.rqs t).req.op = .read → Shows s t d.data ∧ d.data.length = (s.queue.rqs t).req.segments.length) ∧
    ((s.queue.rqs t).req.op ≠ .read → d.data = [])

/-- What a thread has copied of the data of an answer. -/
def Gets (s : State C) (x : Nat) : Pc C.queue → Prop
  | .mark _ (.entry _) => ∀ r p, s.taken x = some r → s.posted[r.num]? = some p →
      r.got <+: p.2.data ∧ (r.result ≠ none → r.got = p.2.data)
  | .release _ (.entry _) | .finish _ (.entry _) =>
    ∀ r p, s.taken x = some r → s.posted[r.num]? = some p → r.got = p.2.data
  | _ => True

structure Transfer (s : State C) : Prop where
  write : ∀ t, Keeping s.queue t → (s.queue.rqs t).req.op = .write → Shows s t (s.copied t)
  read : ∀ p, p ∈ s.posted ∨ s.writing = some p → ∀ t, Pending s.queue t → (s.queue.rqs t).tid = p.1 →
    Answered s t p.2
  gets : ∀ x, Gets s x (s.queue.threads x)

theorem transfer_init (n r : Nat) : Transfer (initState C n r) where
  write t h := by cases h.1
  read p h := by rcases h with h | h <;> cases h
  gets _ := trivial

/-! ## Pages -/

theorem Shows.nil (s : State C) (t : C.Tag) : Shows s t [] := fun k b h => by cases h

theorem Shows.frame {t : C.Tag} {bss : List (List UInt8)} (h : Shows s t bss)
    (hreq : (s'.queue.rqs t).req = (s.queue.rqs t).req) (hpage : ∀ k, reqPage s' t k = reqPage s t k)
    (hdata : ∀ k page, reqPage s t k = some page → s'.data page = s.data page) : Shows s' t bss := by
  intro k b hb
  obtain ⟨bv, page, hbv, hp, hbytes⟩ := h k b hb
  refine ⟨bv, page, hreq ▸ hbv, (hpage k).trans hp, ?_⟩
  rw [← hbytes]
  exact PageMem.bytes_congr fun x _ _ => congrFun (hdata k page hp) x

theorem Shows.unique {t : C.Tag} {b₁ b₂ : List (List UInt8)} (h₁ : Shows s t b₁) (h₂ : Shows s t b₂)
    (hlen : b₁.length = b₂.length) : b₁ = b₂ := by
  refine List.ext_getElem hlen fun k hk₁ hk₂ => ?_
  obtain ⟨bv, page, hbv, hp, hb⟩ := h₁ k _ (List.getElem?_eq_getElem hk₁)
  obtain ⟨bv', page', hbv', hp', hb'⟩ := h₂ k _ (List.getElem?_eq_getElem hk₂)
  obtain rfl := Option.some.inj (hbv.symm.trans hbv')
  obtain rfl := Option.some.inj (hp.symm.trans hp')
  exact hb.symm.trans hb'

theorem Answered.frame {t : C.Tag} {d : Reply} (h : Answered s t d)
    (hreq : (s'.queue.rqs t).req = (s.queue.rqs t).req) (hpage : ∀ k, reqPage s' t k = reqPage s t k)
    (hdata : ∀ k page, reqPage s t k = some page → s'.data page = s.data page) : Answered s' t d := by
  constructor
  · intro hop
    rw [hreq] at hop ⊢
    obtain ⟨hs, hlen⟩ := h.1 hop
    exact ⟨hs.frame hreq hpage hdata, hlen⟩
  · intro hop
    rw [hreq] at hop
    exact h.2 hop

theorem reqPage_mem {t : C.Tag} {k : Nat} {page : Page} (h : reqPage s t k = some page) :
    ∃ x, (s.queue.pages.reqs t).pi[k]? = some x ∧ s.queue.pages.pool.array x = some page :=
  Option.bind_eq_some_iff.mp h

theorem reqPage_same {t : C.Tag} (h : Same s.queue s'.queue t) (k : Nat) : reqPage s' t k = reqPage s t k := by
  unfold reqPage
  rw [h.pi]
  cases hx : (s.queue.pages.reqs t).pi[k]? with
  | none => rfl
  | some x => exact h.page x (List.mem_of_getElem? hx)

/-- A page is the page of one segment of one request. -/
theorem reqPage_own (h : Queue.Holding s.queue) {t u : C.Tag} {j k : Nat} {page : Page}
    (ht : reqPage s t j = some page) (hu : reqPage s u k = some page) : t = u ∧ j = k := by
  obtain ⟨x, hx, hpx⟩ := reqPage_mem ht
  obtain ⟨y, hy, hpy⟩ := reqPage_mem hu
  obtain rfl := h.owned.inj hpx hpy
  obtain rfl := h.owned.alone (List.mem_of_getElem? hx) (List.mem_of_getElem? hy)
  refine ⟨rfl, ?_⟩
  obtain ⟨hj, hxj⟩ := List.getElem?_eq_some_iff.mp hx
  obtain ⟨hk, hxk⟩ := List.getElem?_eq_some_iff.mp hy
  exact (List.Nodup.getElem_inj_iff (h.owned.nodup t)).mp (hxj.trans hxk.symm)

/-! ## The ranges of a command -/

/-- The number of indices of a request with data. -/
theorem length_pi (h : Queue.Holding s.queue) {t : C.Tag} (ht : Keeping s.queue t)
    (hop : ubbdReqNodata (s.queue.rqs t).op = false) :
    (s.queue.pages.reqs t).pi.length = (s.queue.rqs t).req.segments.length := by
  rw [(h.kept t ht).1, Request.ubbdReqSegments_eq _ hop]

/-- The backend finds at the ranges of a command what the data pages show. -/
theorem ranges_now (h : Queue.Holding s.queue) {t : C.Tag} (ht : Keeping s.queue t)
    (hop : ubbdReqNodata (s.queue.rqs t).op = false) :
    ∃ bss, ranges s (cmdNow s t) = some bss ∧ Shows s t bss ∧
      bss.length = (s.queue.rqs t).req.segments.length := by
  have hlen := length_pi h ht hop
  let page := fun x => (s.queue.pages.pool.array x).getD 0
  have hiov : (cmdNow s t).iov = ((s.queue.pages.reqs t).pi.zip (s.queue.rqs t).req.segments).map
      fun w => Data.iovOf C.data w.1 w.2 :=
    (List.map_zip_eq_zipWith (f := fun w : Nat × BioVec => Data.iovOf C.data w.1 w.2)).symm
  have hread : ∀ w ∈ (s.queue.pages.reqs t).pi.zip (s.queue.rqs t).req.segments,
      Data.readIovec C.data s.queue.pages.pool.array (fun _ => 0) s.data (Data.iovOf C.data w.1 w.2) =
        some (s.data.bytes (page w.1) w.2.off w.2.len) := by
    intro w hw
    obtain ⟨hx, hbv⟩ := List.of_mem_zip hw
    obtain ⟨p, hp⟩ := h.owned.page hx
    obtain ⟨bio, hbio, hbv⟩ := List.mem_flatten.mp hbv
    have hpage : page w.1 = p := congrArg (Option.getD · 0) hp
    rw [hpage]
    exact Data.readIovec_iovOf (h.owned.lt hx) hp ((s.queue.rqs t).req.single bio hbio _ hbv) _ _
  refine ⟨((s.queue.pages.reqs t).pi.zip (s.queue.rqs t).req.segments).map
    fun w => s.data.bytes (page w.1) w.2.off w.2.len, ?_, fun k b hb => ?_, ?_⟩
  · unfold ranges
    rw [hiov, List.mapM_map]
    exact Data.mapM_eq_map hread
  · rw [List.getElem?_map] at hb
    obtain ⟨w, hw, rfl⟩ := Option.map_eq_some_iff.mp hb
    obtain ⟨hx, hbv⟩ := List.getElem?_zip_eq_some.mp hw
    obtain ⟨p, hp⟩ := h.owned.page (List.mem_of_getElem? hx)
    refine ⟨w.2, p, hbv, ?_, ?_⟩
    · rw [reqPage, hx]
      exact hp
    · rw [show page w.1 = p from congrArg (Option.getD · 0) hp]
  · rw [List.length_map, List.length_zip, hlen, Nat.min_self]

/-! ## Messages and their requests -/

theorem Exchange.sent_inj (h : Exchange s) {m m' : C.Key × Msg} (hm : m ∈ s.sent) (hm' : m' ∈ s.sent)
    (heq : m.2.cmd.privData = m'.2.cmd.privData) : m = m' := by
  have hnd : (s.sent.map fun m => m.2.cmd.privData).Nodup := h.tids ▸ List.nodup_range'
  exact List.inj_on_of_nodup_map hnd hm hm' heq

/-- The message of a pending request. -/
theorem Exchange.sent_of_pending (h : Exchange s) {t : C.Tag} (ht : Pending s.queue t) :
    ∃ m ∈ s.sent, m.1 = (t, (s.queue.rqs t).start) ∧ m.2.cmd.privData = (s.queue.rqs t).tid ∧ Alive s m := by
  have hmem := h.regular.traced.recorded.published t (by rw [ht.1]; rfl)
  rw [h.pub] at hmem
  obtain ⟨m, hm, heq⟩ := List.mem_map.mp hmem
  obtain ⟨htid, htag, hstart⟩ := Queue.Pub.mk.inj heq
  have hkey : m.1 = (t, (s.queue.rqs t).start) := Prod.ext htag hstart
  exact ⟨m, hm, hkey, htid, by rw [Alive, hkey]; exact ⟨ht, rfl⟩⟩

theorem Exchange.sent_of_seen (h : Exchange s) {c : Cmd} (hc : c ∈ s.seen) : ∃ m ∈ s.sent, m.2.cmd = c := by
  obtain ⟨hs, es, -, heq⟩ := h.entries
  exact List.mem_map.mp (heq ▸ List.mem_append_left _ hc)

/-- The command that was read under the number of a pending request is its
command. -/
theorem Messages.seen_now (hx : Exchange s) (h : Messages s) {t : C.Tag} (ht : Pending s.queue t) {c : Cmd}
    (hc : c ∈ s.seen) (htid : c.privData = (s.queue.rqs t).tid) : c = cmdNow s t := by
  obtain ⟨m, hm, rfl⟩ := hx.sent_of_seen hc
  obtain ⟨m', hm', hkey, htid', ha⟩ := hx.sent_of_pending ht
  obtain rfl := hx.sent_inj hm hm' (htid.trans htid'.symm)
  rw [h.own m hm ha, hkey]

/-- The operation of a command and that of its request. -/
theorem op_iff (h : Queue.Holding s.queue) {t : C.Tag} (ht : Keeping s.queue t) :
    ((s.queue.rqs t).op = .read ↔ (s.queue.rqs t).req.op = .read) ∧
      ((s.queue.rqs t).op = .write ↔ (s.queue.rqs t).req.op = .write) := by
  have hop := (h.known t).op (Queue.Wk.stage_of_has ht.1)
  generalize (s.queue.rqs t).op = op at hop
  generalize (s.queue.rqs t).req.op = rop at hop
  cases rop with
  | other => cases hop
  | _ =>
    obtain rfl := Option.some.inj hop
    simp

/-! ## The backend writes -/

/-- A page that a byte of a READ is stored to is the page of the request of the
command, which is not answered, or of no request that has its pages. -/
theorem store_page (hx : Exchange s) (hm : Messages s) {c : Cmd} (hc : c ∈ s.todo) {v : Iovec} (hv : v ∈ c.iov)
    {j : Nat} (hj : j < v.len) {page : Page}
    (hpage : Data.ubbdVmaFault C.data s.queue.pages.pool.array ((v.base + j) / C.data.pageSize) = some (.data page)) :
    (∃ t k, Pending s.queue t ∧ c = cmdNow s t ∧ reqPage s t k = some page) ∨
      ∀ u, Keeping s.queue u → ∀ k, reqPage s u k ≠ some page := by
  have hholding := hx.regular.holding
  obtain ⟨m, hmem, rfl⟩ := hx.sent_of_seen (hx.todo c hc)
  rcases hm.past m hmem with ha | hp | hd
  · left
    have hown := hm.own m hmem ha
    rw [hown] at hv
    obtain ⟨x, hxpi, bv, rfl, hbv⟩ := iov_of_mem hv
    obtain ⟨-, hfault⟩ := Data.mmap_iovOf s.queue.pages.pool.array (hholding.owned.lt hxpi) hbv hj
    rw [hfault] at hpage
    obtain ⟨p, hp, heq⟩ := Option.map_eq_some_iff.mp hpage
    cases heq
    obtain ⟨k, hk, hkx⟩ := List.getElem_of_mem hxpi
    refine ⟨m.1.1, k, ha.1, by rw [hown], ?_⟩
    rw [reqPage, List.getElem?_eq_getElem hk, hkx]
    exact hp
  · exfalso
    have hnd := hx.answered.nodup_iff.mpr hx.seen_nodup
    exact (List.nodup_append.mp hnd).2.2 _ (List.mem_append_left _ (List.mem_map_of_mem hc)) _ hp rfl
  · right
    intro u hu k hk
    obtain ⟨x, bv, rfl, hxlt, hbv, hout⟩ := hd.iov v hv
    obtain ⟨-, hfault⟩ := Data.mmap_iovOf s.queue.pages.pool.array hxlt hbv hj
    rw [hfault] at hpage
    obtain ⟨p, hp, heq⟩ := Option.map_eq_some_iff.mp hpage
    cases heq
    obtain ⟨y, hy, hpy⟩ := reqPage_mem hk
    obtain rfl := hholding.owned.inj hp hpy
    exact hout u hu (List.mem_of_getElem? hy)

/-- It changes no page of a WRITE and none of a READ that is answered. -/
theorem Transfer.store (hx : Exchange s) (hm : Messages s) (h : Transfer s) {c : Cmd} (hc : c ∈ s.todo) {v : Iovec}
    (hv : v ∈ c.iov) (hop : c.op = .read) {j : Nat} (hj : j < v.len) {page : Page}
    (hpage : Data.ubbdVmaFault C.data s.queue.pages.pool.array ((v.base + j) / C.data.pageSize) = some (.data page))
    {data : PageMem} (hdata : ∀ p, p ≠ page → data p = s.data p) : Transfer { s with data := data } := by
  have hholding := hx.regular.holding
  have hout : ∀ u, Keeping s.queue u → (∀ t, Pending s.queue t → c = cmdNow s t → u ≠ t) →
      ∀ k p, reqPage s u k = some p → data p = s.data p := by
    intro u hu hne k p hp
    refine hdata p ?_
    rintro rfl
    rcases store_page hx hm hc hv hj hpage with ⟨t, k', hpend, hcmd, ht⟩ | hnone
    · exact hne t hpend hcmd (reqPage_own hholding hp ht).1
    · exact hnone u hu k hp
  refine ⟨fun u hu hw => (h.write u hu hw).frame rfl (fun _ => rfl) (hout u hu ?_),
    fun p hp u hu htid => (h.read p hp u hu htid).frame rfl (fun _ => rfl) (hout u hu.keeping ?_), h.gets⟩
  · rintro t hpend hcmd rfl
    have hread : (s.queue.rqs u).op = .read := by
      rw [← hop, hcmd]
      rfl
    rw [(op_iff hholding hu).1.mp hread] at hw
    cases hw
  · rintro t hpend hcmd rfl
    -- a number is to be answered, being answered, or answered, once
    have hnd := hx.answered.nodup_iff.mpr hx.seen_nodup
    rw [List.append_assoc] at hnd
    refine (List.nodup_append.mp hnd).2.2 _ (List.mem_map_of_mem hc) p.1 ?_ ?_
    · rcases hp with hp | hp
      · exact List.mem_append_right _ (List.mem_map_of_mem hp)
      · refine List.mem_append_left _ ?_
        rw [hp]
        exact List.mem_singleton.mpr rfl
    · rw [hcmd, ← htid]
      rfl

/-- It answers a command. -/
theorem Transfer.reply (hx : Exchange s) (hm : Messages s) (h : Transfer s) {tid result : Nat} {c : Cmd}
    (hc : todoOf s tid = some c) {compr : Mem} {todo : List Cmd} :
    Transfer { s with compr := compr, todo := todo, writing := some (tid, ⟨result, readData s c⟩) } := by
  refine ⟨h.write, fun p hp u hu htid => ?_, h.gets⟩
  rcases hp with hp | hp
  · exact h.read p (.inl hp) u hu htid
  · obtain rfl := Option.some.inj hp
    have hcmd := hm.seen_now hx hu (hx.todo c (List.mem_of_find?_eq_some hc)) (by
      rw [show c.privData = tid by simpa using List.find?_some hc]
      exact htid.symm)
    have hop := (op_iff hx.regular.holding hu.keeping).1
    have hcop : c.op = (s.queue.rqs u).op := by
      rw [hcmd]
      rfl
    constructor
    · intro hread
      have hopr : (s.queue.rqs u).op = .read := hop.mpr hread
      obtain ⟨bss, hbss, hshows, hlen⟩ := ranges_now hx.regular.holding hu.keeping (by rw [hopr]; rfl)
      have hdata : readData s c = bss := by
        rw [readData, if_pos (hcop.trans hopr), hcmd, hbss]
        rfl
      rw [hdata]
      exact ⟨hshows, hlen⟩
    · intro hread
      exact if_neg fun hc => hread (hop.mp (hcop.symm.trans hc))

/-! ## The driver copies -/

/-- The next segment of a WRITE. -/
theorem Transfer.copyTo (hx : Exchange s) (h : Transfer s) {t : C.Tag} {bio : PageMem} {bv : BioVec} {page : Page}
    (wk : (s.queue.rqs t).wk = .prepared) (op : (s.queue.rqs t).req.op = .write)
    (seg : (s.queue.rqs t).req.segments[(s.copied t).length]? = some bv)
    (hpage : reqPage s t (s.copied t).length = some page) :
    Transfer { s with
      data := s.data.memcpy bio ⟨page, bv.page, bv.off, bv.len⟩
      copied := Function.update s.copied t (s.copied t ++ [Data.segBytes bio bv]) } := by
  have hholding := hx.regular.holding
  have hdata : ∀ p, p ≠ page → s.data.memcpy bio ⟨page, bv.page, bv.off, bv.len⟩ p = s.data p := fun p hp =>
    funext fun x => if_neg fun hw => hp hw.1
  have hout : ∀ u, u ≠ t → ∀ k p, reqPage s u k = some p →
      s.data.memcpy bio ⟨page, bv.page, bv.off, bv.len⟩ p = s.data p := by
    intro u hu k p hp
    refine hdata p ?_
    rintro rfl
    exact hu (reqPage_own hholding hp hpage).1
  refine ⟨fun u hu hw => ?_, fun p hp u hu htid => ?_, h.gets⟩
  · by_cases hut : u = t
    · subst hut
      show Shows _ u (Function.update s.copied u _ u)
      rw [Function.update_self]
      intro k b hb
      rcases Nat.lt_or_ge k (s.copied u).length with hlt | hge
      · rw [List.getElem?_append_left hlt] at hb
        obtain ⟨bv', page', hbv', hp', hbytes⟩ := h.write u hu hw k b hb
        refine ⟨bv', page', hbv', hp', ?_⟩
        rw [← hbytes]
        refine PageMem.bytes_congr fun x _ _ => congrFun (hdata page' ?_) x
        rintro rfl
        exact Nat.ne_of_lt hlt (reqPage_own hholding hp' hpage).2
      · rw [List.getElem?_append_right hge] at hb
        obtain ⟨hlt, hb⟩ := List.getElem?_eq_some_iff.mp hb
        rw [List.length_singleton] at hlt
        obtain rfl : k = (s.copied u).length := by omega
        rw [List.getElem_singleton] at hb
        refine ⟨bv, page, seg, hpage, ?_⟩
        rw [← hb]
        exact PageMem.bytes_congr fun x h₁ h₂ => if_pos ⟨rfl, h₁, h₂⟩
    · show Shows _ u (Function.update s.copied t _ u)
      rw [Function.update_of_ne hut]
      exact (h.write u hu hw).frame rfl (fun _ => rfl) (hout u hut)
  · refine (h.read p hp u hu htid).frame rfl (fun _ => rfl) (hout u ?_)
    rintro rfl
    have := hu.1
    rw [wk] at this
    cases this

theorem Gets.frame {x : Nat} {pc : Pc C.queue} (h : Gets s x pc) (ht : s'.taken x = s.taken x)
    (hp : ∀ r p, s.taken x = some r → s'.posted[r.num]? = some p → s.posted[r.num]? = some p) : Gets s' x pc := by
  cases pc with
  | mark t by_ =>
    cases by_ with
    | entry tid => exact fun r p hr hrp => h r p (ht ▸ hr) (hp r p (ht ▸ hr) hrp)
    | removal => trivial
  | release t by_ =>
    cases by_ with
    | entry tid => exact fun r p hr hrp => h r p (ht ▸ hr) (hp r p (ht ▸ hr) hrp)
    | removal => trivial
  | finish t by_ =>
    cases by_ with
    | entry tid => exact fun r p hr hrp => h r p (ht ▸ hr) (hp r p (ht ▸ hr) hrp)
    | removal => trivial
  | _ => trivial

/-- The answer of which a caller has the entry. -/
theorem Exchange.answered_mark (hx : Exchange s) (h : Transfer s) {x : Nat} {t : C.Tag} {tid : Nat} {r : Taken}
    {p : Nat × Reply} (pc : s.queue.threads x = .mark t (.entry tid)) (hr : s.taken x = some r)
    (hp : s.posted[r.num]? = some p) : Answered s t p.2 := by
  have hown := hx.regular.traced.own
  obtain ⟨hwk, -⟩ := hown.of_holds (x := x) (t := t) (by rw [pc]; rfl)
  have hserved := hx.regular.traced.recorded.served x
  rw [pc] at hserved
  have ht := hx.completions.takes x
  rw [pc] at ht
  obtain ⟨r', p', hr', hp', hptid⟩ := ht
  obtain rfl := Option.some.inj (hr.symm.trans hr')
  obtain rfl := Option.some.inj (hp.symm.trans hp'.num)
  refine h.read p (.inl (List.mem_of_getElem? hp)) t ⟨hwk, hown.unreleased pc⟩ ?_
  rw [hptid]
  exact hserved

/-- The next segment of a READ. -/
theorem Transfer.copyFrom (hx : Exchange s) (h : Transfer s) {x : Nat} {t : C.Tag} {tid : Nat} {r : Taken} {bv : BioVec}
    {page : Page} (pc : s.queue.threads x = .mark t (.entry tid)) (hr : s.taken x = some r)
    (op : (s.queue.rqs t).req.op = .read) (unread : r.result = none)
    (seg : (s.queue.rqs t).req.segments[r.got.length]? = some bv) (hpage : reqPage s t r.got.length = some page) :
    Transfer (s.setTaken x (some { r with got := r.got ++ [s.data.bytes page bv.off bv.len] })) := by
  refine ⟨h.write, h.read, fun y => ?_⟩
  by_cases hyx : y = x
  · subst hyx
    show Gets _ y (s.queue.threads y)
    rw [pc]
    intro r' p hr' hp
    rw [State.setTaken_taken, if_pos rfl] at hr'
    obtain rfl := Option.some.inj hr'
    have hp : s.posted[r.num]? = some p := hp
    have hgets := h.gets y
    rw [pc] at hgets
    obtain ⟨hpre, -⟩ := hgets r p hr hp
    obtain ⟨hshows, hlen⟩ := (hx.answered_mark h pc hr hp).1 op
    obtain ⟨hlt, -⟩ := List.getElem?_eq_some_iff.mp seg
    rw [← hlen] at hlt
    -- the segment that is next is the one that was copied
    obtain ⟨bv', page', hbv', hp', hb⟩ := hshows _ _ (List.getElem?_eq_getElem hlt)
    obtain rfl := Option.some.inj (seg.symm.trans hbv')
    obtain rfl := Option.some.inj (hpage.symm.trans hp')
    refine ⟨?_, fun hres => absurd unread hres⟩
    show r.got ++ [s.data.bytes page bv.off bv.len] <+: p.2.data
    have hgot : p.2.data.take r.got.length = r.got := (List.prefix_iff_eq_take.mp hpre).symm
    have hnext : r.got ++ [p.2.data[r.got.length]] = p.2.data.take (r.got.length + 1) := by
      rw [← List.take_append_getElem hlt, hgot]
    rw [hb, hnext]
    exact List.take_prefix ..
  · refine (h.gets y).frame ?_ fun _ _ _ => id
    rw [State.setTaken_taken, if_neg hyx]

/-- A caller reads `result` when it has all the data. -/
theorem Transfer.result (hx : Exchange s) (h : Transfer s) {x : Nat} {t : C.Tag} {tid : Nat} {r : Taken} {res : Nat}
    (pc : s.queue.threads x = .mark t (.entry tid)) (hr : s.taken x = some r)
    (full : (s.queue.rqs t).req.op = .read → r.got.length = (s.queue.rqs t).req.segments.length) :
    Transfer (s.setTaken x (some { r with result := some res })) := by
  refine ⟨h.write, h.read, fun y => ?_⟩
  by_cases hyx : y = x
  · subst hyx
    show Gets _ y (s.queue.threads y)
    rw [pc]
    intro r' p hr' hp
    rw [State.setTaken_taken, if_pos rfl] at hr'
    obtain rfl := Option.some.inj hr'
    have hp : s.posted[r.num]? = some p := hp
    have hgets := h.gets y
    rw [pc] at hgets
    obtain ⟨hpre, -⟩ := hgets r p hr hp
    have hans := hx.answered_mark h pc hr hp
    refine ⟨hpre, fun _ => ?_⟩
    show r.got = p.2.data
    by_cases hop : (s.queue.rqs t).req.op = .read
    · exact hpre.eq_of_length ((full hop).trans (hans.1 hop).2.symm)
    · rw [hans.2 hop] at hpre ⊢
      exact List.prefix_nil.mp hpre
  · refine (h.gets y).frame ?_ fun _ _ _ => id
    rw [State.setTaken_taken, if_neg hyx]

/-! ## The queue -/

/-- What threads have copied, after a step of one of them. -/
theorem Transfer.threadStep (hx : Exchange s) (h : Transfer s) {x : Nat} {l : Queue.ThLabel} {q : Queue.State C.queue}
    (ok : allowed s (.th x l) = true) (hq : ThStep s.queue x l q) (y : Nat) :
    Gets (record s (.th x l) q) y (q.threads y) := by
  have hmove : ∀ {b : Queue.State C.queue} {pc : Pc C.queue}, q.threads = (b.setPc x pc).threads →
      b.threads = s.queue.threads → (Gets s x (s.queue.threads x) → Gets (record s (.th x l) q) x pc) →
      Gets (record s (.th x l) q) y (q.threads y) := by
    intro b pc hth hth₀ hpc
    rw [hth, Queue.State.setPc_threads]
    split
    · rename_i hyx
      rw [hyx]
      exact hpc (h.gets x)
    · rename_i hyx
      rw [hth₀]
      exact (h.gets y).frame (takenAfter_of_ne hyx l) fun _ _ _ => id
  cases hq with
  | back l call pc =>
    refine (h.gets y).frame ?_ fun _ _ _ => id
    exact congrFun (record_taken (q := s.queue) fun z he => by cases he; cases call) y
  | remFlushed force snap pc flushed => exact hmove rfl rfl fun _ => by cases force <;> trivial
  | take | miss | last | fetch => cases ok
  | setStopped t tid pc =>
    refine hmove (b := s.queue) rfl rfl fun _ r p hr _ => ?_
    have ht := hx.completions.takes x
    rw [pc] at ht
    obtain ⟨r', p', hr', hgot, hres, -, -⟩ := ht
    obtain rfl := Option.some.inj (hr'.symm.trans hr)
    exact ⟨hgot ▸ List.nil_prefix, fun hne => absurd hres hne⟩
  | mark t by_ pc =>
    refine hmove (b := s.queue) rfl rfl fun hg => ?_
    rw [pc] at hg
    cases by_ with
    | entry tid =>
      intro r p hr hp
      refine (hg r p hr hp).2 fun hnone => ?_
      have hr : s.taken x = some r := hr
      simp only [allowed, pc, hr, Option.any_some, hnone] at ok
      cases ok
    | removal => trivial
  | released t by_ pc idle =>
    refine hmove (b := s.queue.setRq t _) rfl rfl fun hg => ?_
    rw [pc] at hg
    cases by_ with
    | entry tid => exact hg
    | removal => trivial
  | advance by_ pc => exact hmove (b := s.queue) rfl rfl fun _ => by cases by_ <;> trivial
  | finish t by_ pc => exact hmove rfl rfl fun _ => trivial
  | _ => exact hmove (b := s.queue) rfl rfl fun _ => trivial

/-- An answer is to a request that was submitted before. -/
theorem Exchange.answer_old (hx : Exchange s) {p : Nat × Reply} (hp : p ∈ s.posted ∨ s.writing = some p)
    {q : Queue.State C.queue} {t : C.Tag} (hq : Queue.step s.queue (.rq t .submit) = some q)
    (ht : Pending q t) : (q.rqs t).tid ≠ p.1 := by
  intro htid
  have hw : WkStep s.queue t .submit q := Queue.stepWk_cases hq
  cases hw with
  | full wk =>
    have := ht.1
    rw [Queue.State.setWk_rqs, if_pos rfl] at this
    cases this
  | publish wk ring se =>
    have htid : ((s.queue.setRq t { s.queue.rqs t with
        tid := Queue.inc64 s.queue.reqTid, se := se, wk := .published }).rqs t).tid = p.1 := htid
    rw [Queue.State.setRq_rqs, if_pos rfl] at htid
    have hfew := hx.regular.few
    rw [hx.regular.traced.recorded.reqTid] at htid
    have hmem : p.1 ∈ s.sent.map fun m => m.2.cmd.privData := by
      refine hx.seen_map.subset (hx.answered.subset ?_)
      rcases hp with hp | hp
      · exact List.mem_append_right _ (List.mem_map_of_mem hp)
      · refine List.mem_append_left _ (List.mem_append_right _ ?_)
        rw [hp]
        exact List.mem_singleton.mpr rfl
    rw [hx.tids, List.mem_range'_1] at hmem
    rw [hx.pub, List.length_map] at htid hfew
    have htid : Queue.inc64 s.sent.length = p.1 := htid
    unfold Queue.inc64 at htid
    split at htid <;> omega

theorem Transfer.queue (hx : Exchange s) (hm : Messages s) (h : Transfer s) {l : Queue.Label C.queue}
    {q : Queue.State C.queue} (ok : allowed s l = true) (hq : Queue.step s.queue l = some q) :
    Transfer (record s l q) := by
  have hown := hx.regular.traced.own
  have hholding := hx.regular.holding
  refine ⟨fun t ht hop => ?_, fun p hp t ht htid => ?_, fun y => ?_⟩
  · show Shows _ t (copiedAfter s l t)
    rw [copiedAfter_eq (not_started hq ht.1)]
    obtain ⟨hsame, hold | ⟨hwk, -⟩⟩ := Queue.keeping_step hown hholding hq ht
    · have hopw : (s.queue.rqs t).req.op = .write := by rw [← hsame.req]; exact hop
      exact (h.write t hold hopw).frame hsame.req (reqPage_same hsame) fun _ _ _ => rfl
    · rw [hm.fresh t (by rcases hwk with hwk | hwk <;> rw [hwk] <;> rfl)]
      exact .nil _ t
  · rcases Queue.pending_step hq ht with rfl | ⟨hold, htid'⟩
    · exact absurd htid (hx.answer_old hp hq ht)
    · have hsame := (Queue.keeping_step hown hholding hq ht.keeping).1
      exact (h.read p hp t hold (htid'.symm.trans htid)).frame hsame.req (reqPage_same hsame) fun _ _ _ => rfl
  · show Gets _ y (q.threads y)
    have hsame : (∀ x, l ≠ .th x .finish) → q.threads = s.queue.threads → Gets (record s l q) y (q.threads y) := by
      intro hl hth
      rw [hth]
      exact (h.gets y).frame (congrFun (record_taken hl) y) fun _ _ _ => id
    cases Queue.step_cases hq with
    | rq hw => exact hsame nofun hw.control.2.1
    | th hth => exact h.threadStep hx ok hth y
    | _ => exact hsame nofun rfl

/-- A caller looks for the request of its entry. -/
theorem Transfer.fetch (hx : Exchange s) (h : Transfer s) {x : Nat} {r : Taken} {q q' : Queue.State C.queue}
    (hr : s.taken x = some r)
    (hq : Queue.step s.queue (.th x (.take (C.compr.privData.get s.compr r.ce))) = some q)
    (hq' : Queue.step q (.th x .fetch) = some q') :
    Transfer { s.setTaken x (entryKept s x q') with queue := q' } := by
  obtain ⟨hrqs, hpages, hrel, -⟩ := fetch_rqs hq hq'
  obtain ⟨pc, hother, hat⟩ := fetch_threads hq hq'
  obtain ⟨hgot, hres, -⟩ := hx.completions.tid hr pc
  have hreq : ∀ t, (q'.rqs t).req = (s.queue.rqs t).req := fun t => by rw [hrqs]
  have hpage : ∀ t k, reqPage (C := C) { s.setTaken x (entryKept s x q') with queue := q' } t k = reqPage s t k := by
    intro t k
    show ((q'.pages.reqs t).pi[k]?.bind q'.pages.pool.array) = _
    rw [hpages]
    rfl
  refine ⟨fun t ht hop => ?_, fun p hp t ht htid => ?_, fun y => ?_⟩
  · refine (h.write t ?_ ((hreq t) ▸ hop)).frame (hreq t) (hpage t) fun _ _ _ => rfl
    exact ⟨by rw [← hrqs]; exact ht.1, fun y => hrel y ▸ ht.2 y⟩
  · refine (h.read p hp t ?_ ?_).frame (hreq t) (hpage t) fun _ _ _ => rfl
    · exact ⟨by rw [← hrqs]; exact ht.1, fun y => hrel y ▸ ht.2 y⟩
    · rw [← hrqs]
      exact htid
  · show Gets _ y (q'.threads y)
    have htaken : ∀ z, ({ s.setTaken x (entryKept s x q') with queue := q' } : State C).taken z =
        if z = x then entryKept s x q' else s.taken z := fun z => State.setTaken_taken ..
    by_cases hyx : y = x
    · subst hyx
      rcases hat with hat | ⟨t, -, hat | hat⟩
      · rw [hat]
        trivial
      · rw [hat]
        trivial
      · rw [hat]
        intro r' p hr' _
        rw [htaken, if_pos rfl, entryKept, hat, hr] at hr'
        obtain rfl := Option.some.inj hr'
        exact ⟨hgot ▸ List.nil_prefix, fun hne => absurd hres hne⟩
    · rw [hother y hyx]
      exact (h.gets y).frame (by rw [htaken, if_neg hyx]) fun _ _ _ => id

/-- Steps that leave the queue and the data alone, and answers as they are. -/
theorem Transfer.frame (h : Transfer s) (hq : s'.queue = s.queue) (hdata : s'.data = s.data)
    (hcopied : s'.copied = s.copied)
    (hans : ∀ p, p ∈ s'.posted ∨ s'.writing = some p → p ∈ s.posted ∨ s.writing = some p)
    (hgets : ∀ x, Gets s' x (s.queue.threads x)) : Transfer s' := by
  have hpage : ∀ t k, reqPage s' t k = reqPage s t k := fun t k => by unfold reqPage; rw [hq]
  refine ⟨fun t ht hop => ?_, fun p hp t ht htid => ?_, fun x => ?_⟩
  · rw [hq] at ht hop
    rw [hcopied]
    exact (h.write t ht hop).frame (by rw [hq]) (hpage t) fun _ _ _ => by rw [hdata]
  · rw [hq] at ht htid
    exact (h.read p (hans p hp) t ht htid).frame (by rw [hq]) (hpage t) fun _ _ _ => by rw [hdata]
  · rw [hq]
    exact hgets x

theorem transfer_step {a : Label C} (hx : Exchange s) (hm : Messages s) (h : Transfer s) (hs : step s a = some s') :
    Transfer s' := by
  cases step_cases hs with
  | queue l q ok hq => exact h.queue hx hm ok hq
  | copyTo t bio bv page wk op seg hpage => exact h.copyTo hx wk op seg hpage
  | take x pc hnone more =>
    refine h.frame rfl rfl rfl (fun _ => id) fun y => ?_
    by_cases hyx : y = x
    · rw [hyx, pc]
      trivial
    · refine (h.gets y).frame ?_ fun _ _ _ => id
      show (s.setTaken x _).taken y = _
      rw [State.setTaken_taken, if_neg hyx]
  | fetch x r q q' hr hq hq' => exact h.fetch hx hr hq hq'
  | copyFrom x t tid r bv page pc hr op unread seg hpage => exact h.copyFrom hx pc hr op unread seg hpage
  | result x t tid r pc hr unread full => exact h.result hx pc hr full
  | readCmd c more hc =>
    exact h.frame rfl rfl rfl (fun _ => id) fun y => (h.gets y).frame rfl fun _ _ _ => id
  | readPad more hc =>
    exact ⟨h.write, h.read, fun y => (h.gets y).frame rfl fun _ _ _ => id⟩
  | store tid k j b c v page hc hv op lt hpage =>
    refine h.store hx hm (List.mem_of_find?_eq_some hc) (List.mem_of_getElem? hv) op lt hpage fun p hp => ?_
    exact funext fun x => if_neg fun hw => hp hw.1
  | reply tid result c hc free lt => exact h.reply hx hm hc
  | post p hp room =>
    refine h.frame rfl rfl rfl (fun p' hp' => ?_) fun y => ?_
    · rcases hp' with hp' | hp'
      · rcases List.mem_append.mp hp' with hp' | hp'
        · exact .inl hp'
        · rw [List.mem_singleton.mp hp']
          exact .inr hp
      · cases hp'
    · refine (h.gets y).frame rfl fun r q hr hq => ?_
      obtain ⟨q', hq'⟩ := (hx.completions.takes y).is hr
      obtain ⟨hlt, -⟩ := List.getElem?_eq_some_iff.mp hq'.num
      exact (List.getElem?_append_left hlt).symm.trans hq

/-- A thread that is to end a request has the answer to its command. -/
theorem Exchange.finishing (hx : Exchange s) (h : Transfer s) {x : Nat} {t : C.Tag} {tid : Nat}
    (pc : s.queue.threads x = .finish t (.entry tid)) :
    ∃ r p, s.taken x = some r ∧ Is s r p ∧ answer s x (.entry tid) = some p.2 ∧
      (⟨p.1, t, (s.queue.rqs t).start⟩ : Queue.Pub C.queue) ∈ s.queue.pub := by
  have hrec := hx.regular.traced.recorded
  have htakes := hx.completions.takes x
  have hgets := h.gets x
  have hserved := hrec.served x
  rw [pc] at htakes hgets hserved
  obtain ⟨r, p, hr, hp, hptid, hres⟩ := htakes
  refine ⟨r, p, hr, hp, ?_, ?_⟩
  · simp only [answer, hr, hres, Option.bind_some, Option.map_some]
    rw [hgets r p hr hp.num]
  · obtain ⟨hwk, -⟩ := hx.regular.traced.own.of_holds (x := x) (t := t) (by rw [pc]; rfl)
    rw [hptid, ← show (s.queue.rqs t).tid = tid from hserved]
    exact hrec.published t (by rw [hwk]; rfl)

end Ubbd.Service
