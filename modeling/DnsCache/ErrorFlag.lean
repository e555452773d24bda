import DnsCache.SecondReply

/-! # The error flag of a second reply

`missindex` is set when a lookup fails and never reset, so that a worker
reports an error for every TCP entry it looks up from then on.

* `Tainted`: what the flag is really made of; `runs_flagsOk`.
* `flag_reports_own_iff`: the flag reports the request's own failures exactly
  when there are some, or no worker with an earlier failure served the request.
-/

namespace DnsCache

open CMem Trace

/-- A lookup that the worker `w` made for a TCP entry failed. -/
def Failed (w : Nat) (tr : List Event) : Prop := ∃ t, .resolved w (.tcp t) none ∈ tr

/-- The entry was looked up by a worker of which an earlier lookup had failed. -/
def AfterFailure (t : TcpEntry) (tr : List Event) : Prop :=
  ∃ pre post w res, tr = pre ++ .resolved w (.tcp t) res :: post ∧ Failed w pre

/-- A lookup for one of the request's own missed names failed. -/
def OwnFailure (r : Nat) (tr : List Event) : Prop :=
  ∃ w t, t.req = r ∧ .resolved w (.tcp t) none ∈ tr

/-- The flag of a second reply's head says whether a lookup of the request failed. -/
def ReportsOwn (r : Nat) (head : List UInt8) (tr : List Event) : Prop :=
  (OwnFailure r tr → head[headLength - 1]? = some secondWithError) ∧
    (¬ OwnFailure r tr → head[headLength - 1]? = some secondWithoutError)

/-- The entry's lookup, or an earlier one of the same worker, failed. -/
def Tainted (t : TcpEntry) (tr : List Event) : Prop :=
  ∃ pre post w res, tr = pre ++ .resolved w (.tcp t) res :: post ∧ (res = none ∨ Failed w pre)

variable {n : Nat} {kache : Kache} {udpBuf : List UInt8} {hn : 0 < n} {tr evs pre post : List Event}
  {s s' : State n} {a : Act} {ph : TcpEntry → Phase}

/-! ## Failures along a trace -/

theorem failed_append (w : Nat) (tr evs : List Event) :
    Failed w (tr ++ evs) ↔ Failed w tr ∨ Failed w evs := by
  unfold Failed
  constructor
  · rintro ⟨t, ht⟩
    rcases List.mem_append.mp ht with ht | ht
    · exact .inl ⟨t, ht⟩
    · exact .inr ⟨t, ht⟩
  · rintro (⟨t, ht⟩ | ⟨t, ht⟩)
    · exact ⟨t, List.mem_append_left _ ht⟩
    · exact ⟨t, List.mem_append_right _ ht⟩

theorem lookups_ne_nil {w : Nat} {t : TcpEntry} {res : Option UInt32}
    (h : .resolved w (.tcp t) res ∈ tr) : lookups t tr ≠ [] := by
  apply List.ne_nil_of_mem (a := res)
  exact List.mem_filterMap.mpr ⟨_, h, if_pos rfl⟩

/-- Nothing that happens without a lookup of the entry changes its taint. -/
theorem tainted_append {t : TcpEntry} (h : lookups t evs = []) :
    Tainted t (tr ++ evs) ↔ Tainted t tr := by
  constructor
  · rintro ⟨pre, post, w, res, htr, hwhy⟩
    rcases List.append_eq_append_iff.mp htr with ⟨l, hpre, hevs⟩ | ⟨l, htr', hevs⟩
    · refine absurd h (@lookups_ne_nil _ w _ res ?_)
      rw [hevs]
      exact List.mem_append_right _ List.mem_cons_self
    · rcases l with _ | ⟨ev, l⟩
      · refine absurd h (@lookups_ne_nil _ w _ res ?_)
        rw [List.nil_append] at hevs
        rw [← hevs]
        exact List.mem_cons_self
      · rw [List.cons_append, List.cons.injEq] at hevs
        rw [← hevs.1] at htr'
        exact ⟨pre, l, w, res, htr', hwhy⟩
  · rintro ⟨pre, post, w, res, rfl, hwhy⟩
    exact ⟨pre, post ++ evs, w, res, by simp, hwhy⟩

/-- The taint of an entry just looked up. -/
theorem tainted_resolved {w : Nat} {t : TcpEntry} {res : Option UInt32} {key : CStr}
    {data : DataT} (h : lookups t tr = []) :
    Tainted t (tr ++ [.resolved w (.tcp t) res, .stored key data]) ↔ res = none ∨ Failed w tr := by
  constructor
  · rintro ⟨pre, post, w', res', htr, hwhy⟩
    rcases List.append_eq_append_iff.mp htr with ⟨l, hpre, hevs⟩ | ⟨l, htr', hevs⟩
    · rcases l with _ | ⟨ev, l⟩
      · rw [List.nil_append, List.cons.injEq, Event.resolved.injEq] at hevs
        rcases hevs with ⟨⟨rfl, -, rfl⟩, -⟩
        rwa [hpre, List.append_nil] at hwhy
      · -- the lookup comes first, the store after it
        rw [List.cons_append, List.cons.injEq] at hevs
        have hmem : .resolved w' (.tcp t) res' ∈ [Event.stored key data] := by
          rw [hevs.2]
          exact List.mem_append_right _ List.mem_cons_self
        simp at hmem
    · rcases l with _ | ⟨ev, l⟩
      · rw [List.nil_append, List.cons.injEq, Event.resolved.injEq] at hevs
        rcases hevs with ⟨⟨rfl, -, rfl⟩, -⟩
        rwa [htr', List.append_nil]
      · rw [List.cons_append, List.cons.injEq] at hevs
        refine absurd h (@lookups_ne_nil _ w' _ res' ?_)
        rw [htr', ← hevs.1]
        exact List.mem_append_right _ List.mem_cons_self
  · intro hwhy
    exact ⟨tr, [.stored key data], w, res, rfl, hwhy⟩

/-- Taint is the entry's own failure or an earlier one of its worker. -/
theorem tainted_iff {t : TcpEntry} :
    Tainted t tr ↔ (∃ w, .resolved w (.tcp t) none ∈ tr) ∨ AfterFailure t tr := by
  constructor
  · rintro ⟨pre, post, w, res, htr, rfl | hfailed⟩
    · refine .inl ⟨w, ?_⟩
      rw [htr]
      exact List.mem_append_right _ List.mem_cons_self
    · exact .inr ⟨pre, post, w, res, htr, hfailed⟩
  · rintro (⟨w, hmem⟩ | ⟨pre, post, w, res, htr, hfailed⟩)
    · rcases List.append_of_mem hmem with ⟨pre, post, htr⟩
      exact ⟨pre, post, w, none, htr, .inl rfl⟩
    · exact ⟨pre, post, w, res, htr, .inr hfailed⟩

/-! ## What the flags hold -/

/-- `missindex` remembers every failure of its worker, and `*miss` whether an
entry counted down was tainted. -/
structure FlagsOk {n : Nat} (tr : List Event) (s : State n) : Prop where
  worker : ∀ w, (s.workers w).missindex = haveError ↔ Failed w tr
  filled : ∀ w t, (s.workers w).pc = .filled t →
    ((s.workers w).missindex = haveError ↔ Tainted t tr)
  miss : ∀ r q, s.reqs r = some q →
    (q.miss = haveError ↔ ∃ t ∈ countdown tr, t.req = r ∧ Tainted t tr)

theorem haveError_ne_noError : noError ≠ haveError := by decide

/-- A step without a lookup for a TCP request and without a count down. -/
theorem FlagsOk.keep (h : FlagsOk tr s) (htracks : Tracks tr s ph)
    (hmissindex : ∀ w, (s'.workers w).missindex = (s.workers w).missindex)
    (hfilled : ∀ w t, (s'.workers w).pc = .filled t → (s.workers w).pc = .filled t)
    (hreqs : ∀ r q', s'.reqs r = some q' → (∃ q, s.reqs r = some q ∧ q'.miss = q.miss) ∨
      (s.reqs r = none ∧ q'.miss = noError))
    (hevs : ∀ w t res, .resolved w (.tcp t) res ∉ evs) (hcountdown : countdown evs = []) :
    FlagsOk (tr ++ evs) s' := by
  have hlookups : ∀ t, lookups t evs = [] := by
    intro t
    apply List.eq_nil_iff_forall_not_mem.mpr
    intro res hres
    rcases List.mem_filterMap.mp hres with ⟨ev, hev, hsome⟩
    split at hsome
    · exact hevs _ _ _ hev
    · simp at hsome
  constructor
  · intro w
    rw [hmissindex, h.worker, failed_append, or_iff_left]
    rintro ⟨t, ht⟩
    exact hevs w t none ht
  · intro w t hpc
    rw [hmissindex, h.filled w t (hfilled w t hpc), tainted_append (hlookups t)]
  · intro r q' hq'
    have htaint : ∀ t, Tainted t (tr ++ evs) ↔ Tainted t tr := fun t => tainted_append (hlookups t)
    rw [countdown_append, hcountdown, List.append_nil]
    simp only [htaint]
    rcases hreqs r q' hq' with ⟨q, hq, hmiss⟩ | ⟨hnone, hmiss⟩
    · rw [hmiss]
      exact h.miss r q hq
    · -- of a new request nothing has been counted down
      rw [hmiss]
      refine ⟨fun heq => absurd heq haveError_ne_noError, ?_⟩
      rintro ⟨t, ht, rfl, -⟩
      exact absurd (htracks.put_of_countdown ht) (not_put_of_new hnone)

/-- A lookup for the entry `t`. -/
theorem FlagsOk.fill {w : Nat} {t : TcpEntry} {q : Req} {res : Option UInt32} {key : CStr}
    {data : DataT} {ipptr : List (Option (UInt32 × UInt32))} (h : FlagsOk tr s)
    (htracks : Tracks tr s ph) (hpc : (s.workers w).pc = .taken (.tcp t))
    (hq : s.reqs t.req = some q)
    (hreqs : s'.reqs = Function.update s.reqs t.req (some { q with ipptr := ipptr }))
    (hworkers : s'.workers = Function.update s.workers w
      ⟨.filled t, if res = none then haveError else (s.workers w).missindex⟩) :
    FlagsOk (tr ++ [.resolved w (.tcp t) res, .stored key data]) s' := by
  have hself : s'.workers w =
      ⟨.filled t, if res = none then haveError else (s.workers w).missindex⟩ := by
    rw [hworkers, Function.update_self]
  have hother : ∀ w', w' ≠ w → s'.workers w' = s.workers w' := by
    intro w' hw'
    rw [hworkers, Function.update_of_ne hw']
  have hmissindex : (s'.workers w).missindex = haveError ↔ res = none ∨ Failed w tr := by
    rw [hself, ← h.worker w]
    by_cases hres : res = none <;> simp [hres]
  have hlookups : ∀ t', t' ≠ t → lookups t' [.resolved w (.tcp t) res, .stored key data] = [] := by
    intro t' hne
    have hne' : ¬ t = t' := fun heq => hne heq.symm
    simp [lookups, hne']
  constructor
  · intro w'
    rw [failed_append]
    by_cases hw' : w' = w
    · subst hw'
      rw [hmissindex, or_comm]
      apply or_congr_right
      simp only [Failed]
      constructor
      · rintro rfl
        exact ⟨t, List.mem_cons_self⟩
      · rintro ⟨t', ht'⟩
        simp at ht'
        exact ht'.2.symm
    · rw [hother w' hw', h.worker, or_iff_left]
      rintro ⟨t', ht'⟩
      simp [hw'] at ht'
  · intro w' t' hpc'
    by_cases hw' : w' = w
    · subst hw'
      rw [hself] at hpc'
      cases hpc'
      rw [hmissindex, tainted_resolved (htracks.lookups_taken hpc)]
    · rw [hother w' hw'] at hpc' ⊢
      have hne : t' ≠ t := by
        -- nobody else has filled the slot of an entry just taken
        rintro rfl
        rcases ((htracks t').filled w').mp hpc' with ⟨res', hres'⟩
        rw [((htracks t').held w).mp hpc] at hres'
        simp at hres'
      rw [h.filled w' t' hpc', tainted_append (hlookups t' hne)]
  · intro r q' hq'
    rw [hreqs] at hq'
    rcases req_of_update (R := fun q q' => q'.miss = q.miss) (fun _ => rfl) hq (by rfl) hq' with
      ⟨q₀, hq₀, hmiss⟩
    have hnone : countdown [.resolved w (.tcp t) res, .stored key data] = [] := rfl
    rw [hmiss, h.miss r q₀ hq₀, countdown_append, hnone, List.append_nil]
    apply exists_congr
    intro t'
    apply and_congr_right
    intro ht'
    have hne : t' ≠ t := by
      rintro rfl
      exact htracks.countdown_taken hpc ht'
    rw [tainted_append (hlookups t' hne)]

/-- The section under the mutex for the entry `t`. -/
theorem FlagsOk.countDown {w : Nat} {t : TcpEntry} {q : Req} {number : Int} (h : FlagsOk tr s)
    (hpc : (s.workers w).pc = .filled t) (hq : s.reqs t.req = some q)
    (hreqs : s'.reqs = Function.update s.reqs t.req (some { q with
      miss := if (s.workers w).missindex = haveError then haveError else q.miss
      number := number }))
    (hworkers : s'.workers = Function.update s.workers w
      ⟨.unlocked t, (s.workers w).missindex⟩) :
    FlagsOk (tr ++ [.decremented w t]) s' := by
  have htaint : ∀ t', Tainted t' (tr ++ [.decremented w t]) ↔ Tainted t' tr :=
    fun t' => tainted_append rfl
  have hmissindex : ∀ w', (s'.workers w').missindex = (s.workers w').missindex := by
    intro w'
    rw [hworkers, missindex_of_update]
  constructor
  · intro w'
    rw [hmissindex, h.worker, failed_append, or_iff_left]
    rintro ⟨t', ht'⟩
    simp at ht'
  · intro w' t' hpc'
    rw [hmissindex, htaint]
    by_cases hw' : w' = w
    · subst hw'
      rw [hworkers, Function.update_self] at hpc'
      simp at hpc'
    · rw [hworkers, Function.update_of_ne hw'] at hpc'
      exact h.filled w' t' hpc'
  · intro r q' hq'
    have hone : countdown [.decremented w t] = [t] := rfl
    simp only [htaint]
    rw [countdown_append, hone]
    by_cases hr : r = t.req
    · rw [hreqs, hr, Function.update_self, Option.some.injEq] at hq'
      subst hq'
      have hmiss := h.miss t.req q hq
      have hfilled := h.filled w t hpc
      dsimp only
      by_cases herror : (s.workers w).missindex = haveError
      · rw [if_pos herror]
        refine ⟨fun _ => ⟨t, by simp, hr.symm, hfilled.mp herror⟩, fun _ => rfl⟩
      · rw [if_neg herror, hmiss]
        constructor
        · rintro ⟨t', ht', hr', htaint'⟩
          exact ⟨t', List.mem_append_left _ ht', hr'.trans hr.symm, htaint'⟩
        · rintro ⟨t', ht', hr', htaint'⟩
          rcases List.mem_append.mp ht' with ht' | ht'
          · exact ⟨t', ht', hr'.trans hr, htaint'⟩
          · cases List.mem_singleton.mp ht'
            exact absurd (hfilled.mpr htaint') herror
    · rw [hreqs, Function.update_of_ne hr] at hq'
      rw [h.miss r q' hq']
      apply exists_congr
      intro t'
      constructor
      · rintro ⟨ht', hrest⟩
        exact ⟨List.mem_append_left _ ht', hrest⟩
      · rintro ⟨ht', hr', htaint'⟩
        rcases List.mem_append.mp ht' with ht' | ht'
        · exact ⟨ht', hr', htaint'⟩
        · cases List.mem_singleton.mp ht'
          exact absurd hr'.symm hr

/-- The step lemma. -/
theorem flagsOk_step (h : FlagsOk tr s) (htracks : Tracks tr s ph) (hm : Moves s a s' evs) :
    FlagsOk (tr ++ evs) s' := by
  have hsame : ∀ r q', s.reqs r = some q' → (∃ q, s.reqs r = some q ∧ q'.miss = q.miss) ∨
      (s.reqs r = none ∧ q'.miss = noError) := fun r q' hq' => .inl ⟨q', hq', rfl⟩
  have hupdate : ∀ {r₀ : Nat} {q₀ q₁ : Req}, s.reqs r₀ = some q₀ → q₁.miss = q₀.miss →
      ∀ r q', Function.update s.reqs r₀ (some q₁) r = some q' →
        (∃ q, s.reqs r = some q ∧ q'.miss = q.miss) ∨ (s.reqs r = none ∧ q'.miss = noError) := by
    intro r₀ q₀ q₁ hq₀ hmiss r q' hq'
    exact .inl (req_of_update (R := fun q q' => q'.miss = q.miss) (fun _ => rfl) hq₀ hmiss hq')
  have hfilled : ∀ {w : Nat} {pc : Pc}, (∀ t, pc ≠ .filled t) → ∀ (w' : Nat) (t : TcpEntry),
      (Function.update s.workers w ⟨pc, (s.workers w).missindex⟩ w').pc = .filled t →
        (s.workers w').pc = .filled t := by
    intro w pc hpc w' t
    exact pc_of_update (p := (· = .filled t)) (fun hw't => absurd hw't (hpc t)) w'
  cases hm with
  | refused => exact h.keep htracks (fun _ => rfl) (fun _ _ => id) hsame (by simp) rfl
  | @answered r sock now reply hnew =>
      refine h.keep htracks (fun _ => rfl) (fun _ _ => id) ?_ ?_ ?_
      · intro r' q' hq'
        rw [State.setReq_reqs] at hq'
        by_cases hr : r' = r
        · subst hr
          rw [Function.update_self, Option.some.injEq] at hq'
          subst hq'
          exact .inr ⟨hnew, rfl⟩
        · rw [Function.update_of_ne hr] at hq'
          exact .inl ⟨q', hq', rfl⟩
      · intro w t res
        split <;> simp
      · split <;> rfl
  | enqueued hq =>
      exact h.keep htracks (fun _ => rfl) (fun _ _ => id) (hupdate hq rfl) (by simp) rfl
  | exits => exact h.keep htracks (fun _ => rfl) (fun _ _ => id) hsame (by simp) rfl
  | ignored => exact h.keep htracks (fun _ => rfl) (fun _ _ => id) hsame (by simp) rfl
  | datagram => exact h.keep htracks (fun _ => rfl) (fun _ _ => id) hsame (by simp) rfl
  | enqueuedUdp => exact h.keep htracks (fun _ => rfl) (fun _ _ => id) hsame (by simp) rfl
  | taken => exact h.keep htracks missindex_of_update (hfilled fun _ => nofun) hsame (by simp) rfl
  | resolvedUdp => exact h.keep htracks missindex_of_update (hfilled fun _ => nofun) hsame (by simp) rfl
  | resolved hpc hq => exact h.fill htracks hpc hq rfl rfl
  | decremented hpc hq => exact h.countDown hpc hq rfl rfl
  | @tested w t q junk zero =>
      refine h.keep htracks missindex_of_update (hfilled ?_) hsame ?_ ?_
      · intro t'
        cases zero <;> exact nofun
      · intro w' t' res
        split <;> simp
      · split <;> rfl
  | finished hpc hq =>
      exact h.keep htracks missindex_of_update (hfilled fun _ => nofun) (hupdate hq rfl) (by simp) rfl

theorem flagsOk_start (kache : Kache) (udpBuf : List UInt8) (h : 0 < n) :
    FlagsOk [] (State.start kache udpBuf h) := by
  constructor
  · intro w
    refine ⟨fun heq => absurd heq haveError_ne_noError, ?_⟩
    rintro ⟨t, ht⟩
    simp at ht
  · intro w t hpc
    simp [State.start] at hpc
  · intro r q hq
    simp [State.start] at hq

/-- The run lemma. -/
theorem runs_flagsOk (h : Runs kache udpBuf hn tr s) : FlagsOk tr s := by
  refine @Run.invariant _ _ _ step _ _ FlagsOk (flagsOk_start kache udpBuf hn) ?_ _ _ h
  intro tr s a s' evs hrun hflags _ hstep
  rcases runs_tracks hrun with ⟨ph, htracks⟩
  exact flagsOk_step hflags htracks (moves_of_step hstep).2

/-! ## The flag of the first second reply -/

theorem setFlag_flag {head : List UInt8} (h : head.length = headLength) (flag : UInt8) :
    (setFlag head flag)[headLength - 1]? = some flag := by
  rw [setFlag, List.getElem?_set_self]
  rw [h, headLength_eq]
  omega

theorem secondFlags_ne : secondWithError ≠ secondWithoutError := by decide

/-- The flag says that an entry of the request was tainted. -/
theorem second_flag_tainted {w r : Nat} {head : List UInt8}
    {slots : List (Option (UInt32 × UInt32))}
    (h : Runs kache udpBuf hn (pre ++ .secondReply w r head slots :: post) s)
    (hfirst : secondReplies r pre = 0) :
    ((∃ t, t.req = r ∧ Tainted t pre) → head[headLength - 1]? = some secondWithError) ∧
      ((¬ ∃ t, t.req = r ∧ Tainted t pre) → head[headLength - 1]? = some secondWithoutError) := by
  rcases first_second_reply h hfirst with ⟨s₁, q, hrun, hq, hzero, hhead, -⟩
  rcases runs_tracks hrun with ⟨ph, htracks⟩
  have hok := (runs_reqsOk hrun).reqs r q hq
  rcases hok.reply with ⟨reply, hreply, hreplyHead, -⟩
  rcases runs_firstReply hrun ((hreply reply).mpr rfl) with ⟨kc, now, sock, hserv⟩
  have hlength : q.head.length = headLength := by
    rw [← hreplyHead]
    exact (serv_replied hserv).1
  have hmiss : q.miss = haveError ↔ ∃ t, t.req = r ∧ Tainted t pre := by
    rw [(runs_flagsOk hrun).miss r q hq]
    constructor
    · rintro ⟨t, -, hr, htaint⟩
      exact ⟨t, hr, htaint⟩
    · rintro ⟨t, rfl, htaint⟩
      refine ⟨t, ?_, rfl, htaint⟩
      -- the counter at zero has seen every entry that was looked up
      rcases htaint with ⟨pre', post', w', res, hpre, -⟩
      have hmem : .resolved w' (.tcp t) res ∈ pre := by
        rw [hpre]
        exact List.mem_append_right _ List.mem_cons_self
      rcases htracks.put_of_lookups (lookups_ne_nil hmem) with ⟨q', hq', -, hent⟩
      rw [hq] at hq'
      cases hq'
      exact hok.all_counted htracks hq hzero hent
  rw [hhead, setFlag_flag hlength, secondFlag, ← hmiss]
  constructor
  · intro herror
    rw [if_pos herror]
  · intro herror
    rw [if_neg herror]

/-- The first second reply of a request reports the request's own failures
exactly when there are some, or when no entry of the request was looked up by a
worker that had failed before. -/
theorem flag_reports_own_iff {w r : Nat} {head : List UInt8}
    {slots : List (Option (UInt32 × UInt32))}
    (h : Runs kache udpBuf hn (pre ++ .secondReply w r head slots :: post) s)
    (hfirst : secondReplies r pre = 0) :
    ReportsOwn r head pre ↔ OwnFailure r pre ∨ ¬ ∃ t, t.req = r ∧ AfterFailure t pre := by
  rcases second_flag_tainted h hfirst with ⟨herror, hnoerror⟩
  constructor
  · rintro ⟨-, hnone⟩
    by_contra hno
    rw [not_or, not_not] at hno
    rcases hno with ⟨hown, t, hr, hafter⟩
    -- the reply blames this request for another one's failure
    have hflag := herror ⟨t, hr, tainted_iff.mpr (.inr hafter)⟩
    rw [hnone hown] at hflag
    exact secondFlags_ne (Option.some.inj hflag).symm
  · intro hcond
    constructor
    · rintro ⟨w', t, hr, hmem⟩
      exact herror ⟨t, hr, tainted_iff.mpr (.inl ⟨w', hmem⟩)⟩
    · intro hown
      apply hnoerror
      rintro ⟨t, hr, htaint⟩
      rcases tainted_iff.mp htaint with ⟨w', hmem⟩ | hafter
      · exact hown ⟨w', t, hr, hmem⟩
      · exact hcond.resolve_left hown ⟨t, hr, hafter⟩

/-- `flag_reports_own_iff` at two missed names, the lookup of one of which fails. -/
theorem flag_reports_own_three :
    ReportsOwn 1 (setFlag replyToThree.head secondWithError) beforeReplyThree := by
  rcases runs_three with ⟨s, h⟩
  refine (flag_reports_own_iff h (by decide)).mpr (.inl ⟨0, entryUvw, rfl, ?_⟩)
  simp [beforeReplyThree]

/-- The lookup for the request 1 fails; the same worker then serves the request 2. -/
def leakTrace : List Event :=
  beforeReplyOne 1 nameUvw none ++
    [.secondReply 0 1 (secondHeadOne nameUvw secondWithError) [some (0, dnsError)], .closed 1,
      .freed 1] ++ beforeReplyOne 2 nameXyz (some 5)

/-- No name of the request 2 failed to resolve, and its second reply says one did. -/
theorem flag_leaks_to_next_request :
    ∃ s head, Runs coldKache [] Nat.two_pos
        (leakTrace ++ .secondReply 0 2 head [some (0, 5)] :: [.closed 2, .freed 2]) s ∧
      secondReplies 2 leakTrace = 0 ∧ ¬ OwnFailure 2 leakTrace ∧
      head[headLength - 1]? = some secondWithError ∧ ¬ ReportsOwn 2 head leakTrace := by
  rcases @runs_of_exec 2 coldKache [] Nat.two_pos
    (serveOne 1 nameUvw none ++ serveOne 2 nameXyz (some 5))
    (· = leakTrace ++ .secondReply 0 2 (secondHeadOne nameXyz secondWithError) [some (0, 5)] ::
      [.closed 2, .freed 2]) _ (by decide +kernel) with ⟨_, s, h, rfl⟩
  have hflag : (secondHeadOne nameXyz secondWithError)[headLength - 1]? = some secondWithError := by
    decide
  have hown : ¬ OwnFailure 2 leakTrace := by
    rintro ⟨w, t, hr, hmem⟩
    simp only [leakTrace, beforeReplyOne, List.cons_append, List.nil_append, List.mem_cons,
      reduceCtorEq, Event.resolved.injEq, Entry.tcp.injEq, List.not_mem_nil, false_or,
      or_false, and_false] at hmem
    rw [hmem.2.1] at hr
    simp at hr
  refine ⟨s, _, h, by decide, hown, hflag, ?_⟩
  rintro ⟨-, hnone⟩
  rw [hnone hown] at hflag
  exact secondFlags_ne (Option.some.inj hflag).symm

end DnsCache
