import DistSys.Raft1.Commit
import DistSys.Raft1.Persisted

/- Old and repeated appends.

   A message carries everything its leader had when it built it, so one that was built
   no later carries a part of what a later one carried. Once the follower has stored the
   later one, it keeps that for the rest of the term (`Steps.keeps_log`), whatever else of
   this leader it handles: the earlier message then finds all its entries in place and a
   commit index that is not behind its own. -/
namespace DistSys.Raft1

open Lib

variable {n : Nat} {C D : Type} {svc : Service C D} {s t : Cluster n C D} {g g' : Ghost n C D}
  {tr : List (Cluster n C D × Action n C D)}

/-- Step `i` of the run builds `args` at the leader `a`. -/
def BuiltAt (tr : List (Cluster n C D × Action n C D)) (i : Nat) (a : Fin n)
    (args : AppendEntryArgs n C) : Prop :=
  ∃ u peer, tr[i]? = some (u, .event (.send a peer)) ∧
    (u.proc a).rf.doSendAppendEntry peer = some (.append args)

/-- At step `k` of the run the peer `b`, in the given incarnation, answers `args` with success. -/
def AnsweredAt (tr : List (Cluster n C D × Action n C D)) (k : Nat) (b : Fin n) (life : Nat)
    (args : AppendEntryArgs n C) : Prop :=
  ∃ w l m, tr[k]? = some (w, .event (.handle l)) ∧ w.net[l]? = some m ∧ m.server = b ∧
    m.payload = .appendReq args ∧ (w.proc b).incarnation = life ∧
    ((w.proc b).rf.appendEntry args).2.success = true

/-! ## A message that is answered with success -/

theorem min_le_advanceCommit (rf : Raft n C D) (i : Nat) :
    min i rf.getLatestLog.index ≤ (rf.advanceCommit i).commitIndex := by
  unfold Raft.advanceCommit
  simp only
  split
  · exact le_rfl
  · rename_i hle
    exact not_lt.mp hle

/-- A success means that the peer was not ahead of the request, held its previous entry and has
stored what it carries. -/
theorem appendEntry_success_cases {rf : Raft n C D} {args : AppendEntryArgs n C}
    (h : (rf.appendEntry args).2.success = true) :
    ¬ args.term < rf.currentTerm ∧
      ({ rf.updateTermAndStepDown args.term with state := .follower } : Raft n C D).isLogMatched
        args.prevLogIndex args.prevLogTerm = true ∧
      (rf.appendEntry args).1 =
        (({ rf.updateTermAndStepDown args.term with state := .follower } :
          Raft n C D).storeEntries args.entries).advanceCommit args.leaderCommit := by
  by_cases hterm : args.term < rf.currentTerm
  · rw [Raft.appendEntry, if_pos hterm] at h
    simp [Raft.rejectAppendEntry] at h
  · rw [appendEntry_of_ge hterm] at h ⊢
    refine ⟨hterm, ?_⟩
    generalize ({ rf.updateTermAndStepDown args.term with state := .follower } : Raft n C D) = rf₁ at h ⊢
    unfold Raft.appendAsFollower at h ⊢
    split at h
    · simp [Raft.rejectAppendEntry] at h
    · rename_i hfirst
      rw [if_neg hfirst]
      split at h
      · simp [conflictReply_success] at h
      · rename_i hmatched
        rw [if_neg hmatched]
        exact ⟨by simpa using hmatched, rfl⟩

theorem advanceCommit_eq (rf : Raft n C D) (i : Nat) :
    rf.advanceCommit i = { rf with commitIndex := (rf.advanceCommit i).commitIndex } := by
  unfold Raft.advanceCommit
  simp only
  split <;> rfl

theorem sameLog_enter (rf : Raft n C D) (T : Nat) :
    SameLog rf { rf.updateTermAndStepDown T with state := .follower } := by
  rcases Nat.lt_or_ge rf.currentTerm T with hlt | hge
  · rw [updateTermAndStepDown_of_lt hlt]
    exact ⟨rfl, rfl, rfl, rfl, rfl⟩
  · rw [updateTermAndStepDown_of_le hge]
    exact ⟨rfl, rfl, rfl, rfl, rfl⟩

theorem enter_currentTerm {rf : Raft n C D} {T : Nat} (h : ¬ T < rf.currentTerm) :
    (rf.updateTermAndStepDown T).currentTerm = T := by
  rcases Nat.lt_or_ge rf.currentTerm T with hlt | hge
  · rw [updateTermAndStepDown_of_lt hlt]
    rfl
  · rw [updateTermAndStepDown_of_le hge]
    omega

/-- Two whole logs behind one retained log have the same term at a retained index. -/
theorem compact_termAt {ℓ ℓ' : List (Entry (Option C))} {b i : Nat} (h : compact ℓ b = compact ℓ' b)
    (hb : b ≤ ℓ'.length) (hbi : b ≤ i) (hi : i ≤ ℓ.length) :
    i ≤ ℓ'.length ∧ termAt ℓ i = termAt ℓ' i := by
  have hlen := congrArg List.length h
  rw [compact_length, compact_length] at hlen
  have hi' : i ≤ ℓ'.length := by omega
  refine ⟨hi', ?_⟩
  rw [← (compact_getD hbi hi).1, h, (compact_getD hbi hi').1]

/-- What is retained after storing comes from a whole log that starts with the piece carried. -/
theorem LogInv.stored {c : Repl (Fin n) (Option C)} {b : Fin n} {rf : Raft n C D}
    (h : LogInv c b rf) (hi : c.Inv) {args : AppendEntryArgs n C} {P : List (Entry (Option C))}
    (hok : AppendOk c args P) (hmatched : rf.isLogMatched args.prevLogIndex args.prevLogTerm = true) :
    ∃ ℓ, P <+: ℓ ∧ rf.lastIncludedIndex ≤ P.length ∧
      (rf.storeEntries args.entries).logs = compact ℓ rf.lastIncludedIndex ∧
      (rf.storeEntries args.entries).lastIncludedIndex = rf.lastIncludedIndex ∧
      (rf.storeEntries args.entries).currentTerm = rf.currentTerm := by
  have hfirst := (h.shows.isLogMatched.mp hmatched).1.trans hok.2.2.1
  rcases h.storeEntries hi hok hmatched with ⟨hpre, heq⟩ | ⟨-, heq⟩
  · rw [heq]
    exact ⟨c.log b, hpre, hfirst, h.logs, rfl, rfl⟩
  · rw [heq]
    exact ⟨P, List.prefix_rfl, hfirst, rfl, rfl, rfl⟩

/-- After a success the log starts with what the request carried, in whatever protocol state the
peer is coupled to then, and the commit index is not behind that of the request. -/
theorem NodeInv.stored {b : Fin n} {p : Process n C D} (h : NodeInv svc g b p) (hi : g.core.Inv)
    {args : AppendEntryArgs n C} {P : List (Entry (Option C))} (hok : AppendOk g.core args P)
    (hsucc : (p.rf.appendEntry args).2.success = true) (hg : g ≤ g') (hi' : g'.core.Inv)
    (h' : NodeInv svc g' b { p with rf := (p.rf.appendEntry args).1 }) :
    P <+: g'.core.log b ∧ (p.rf.appendEntry args).1.currentTerm = args.term ∧
      min args.leaderCommit P.length ≤ (p.rf.appendEntry args).1.commitIndex := by
  obtain ⟨hterm, hmatched, heq⟩ := appendEntry_success_cases hsucc
  have hsame := sameLog_enter p.rf args.term
  have hlog : LogInv g.core b { p.rf.updateTermAndStepDown args.term with state := .follower } :=
    h.log.same hsame rfl (Repl.Ext.refl _)
  have hrfterm : ({ p.rf.updateTermAndStepDown args.term with state := .follower } :
      Raft n C D).currentTerm = args.term := enter_currentTerm hterm
  generalize ({ p.rf.updateTermAndStepDown args.term with state := .follower } : Raft n C D) = rf
    at hmatched heq hlog hrfterm
  obtain ⟨ℓ, hpre, hfirst, hlogs, hindex, hcur⟩ := hlog.stored hi hok hmatched
  have hcommit := min_le_advanceCommit (rf.storeEntries args.entries) args.leaderCommit
  rw [advanceCommit_eq] at heq
  generalize rf.storeEntries args.entries = rf₁ at heq hlogs hindex hcur hcommit
  generalize (rf₁.advanceCommit args.leaderCommit).commitIndex = i at heq hcommit
  rw [heq] at h' ⊢
  have hshows := h'.log.shows
  -- the log stored and the one the peer is coupled to are behind the same retained log
  have hretained : compact ℓ rf.lastIncludedIndex = compact (g'.core.log b) rf.lastIncludedIndex := by
    rw [← hlogs, ← hindex]
    exact hshows.logs
  obtain ⟨hlen, hterms⟩ := compact_termAt hretained (hindex ▸ hshows.first_len) hfirst hpre.length_le
  have hsrc : g'.core.Sourced P := ((hi.llog_src _).shorten hok.2.1).ext hg.1
  have htake : (g'.core.log b).take P.length = P.take P.length := by
    refine (hi'.log_src b).matching hsrc hlen le_rfl ?_
    rw [← hterms, termAt_prefix_eq hpre le_rfl]
  refine ⟨?_, hcur.trans hrfterm, ?_⟩
  · rw [List.take_length] at htake
    rw [← htake]
    exact List.take_prefix _ _
  · have hlast : rf₁.getLatestLog.index = (g'.core.log b).length := hshows.latest.1
    rw [hlast] at hcommit
    exact (min_le_min_left _ hlen).trans hcommit

/-! ## A message that finds everything in place -/

/-- A request whose entries are all there and whose commit index is not ahead changes nothing but,
possibly, the role. -/
theorem LogInv.appendEntry_idle {c : Repl (Fin n) (Option C)} {b : Fin n} {rf : Raft n C D}
    (h : LogInv c b rf) (hi : c.Inv) {args : AppendEntryArgs n C} {P : List (Entry (Option C))}
    (hok : AppendOk c args P) (hP : P <+: c.log b) (hterm : rf.currentTerm = args.term)
    (hcommit : args.leaderCommit ≤ rf.commitIndex) :
    (rf.appendEntry args).1 = { rf with state := .follower } := by
  have hlog : LogInv c b { rf with state := .follower } :=
    h.same ⟨rfl, rfl, rfl, rfl, rfl⟩ rfl (Repl.Ext.refl _)
  have hcommit' : args.leaderCommit ≤ ({ rf with state := .follower } : Raft n C D).commitIndex :=
    hcommit
  rw [appendEntry_of_ge hterm.le.not_gt, updateTermAndStepDown_of_le hterm.ge]
  generalize ({ rf with state := .follower } : Raft n C D) = rf₁ at hlog hcommit' ⊢
  unfold Raft.appendAsFollower
  split
  · rfl
  · split
    · rfl
    · rename_i hmatched
      have hsame : rf₁.storeEntries args.entries = rf₁ := by
        rcases hlog.storeEntries hi hok (by simpa using hmatched) with ⟨-, heq⟩ | ⟨hnew, -⟩
        · exact heq
        · exact absurd hP hnew
      simp only [hsame]
      unfold Raft.advanceCommit
      exact if_neg (not_lt.mpr ((min_le_left _ _).trans hcommit'))

/-! ## Runs -/

/-- The protocol goes on with the run. -/
theorem Coupled.goes_on (h : Coupled svc s g) (hp : g.produced = fun _ _ => True)
    (hrun : (system n svc).Run s tr t) : ∃ g', Repl.Steps g.core g'.core ∧ g ≤ g' ∧
      (g'.produced = fun _ _ => True) ∧ Coupled svc t g' := by
  obtain ⟨g', hsteps, hp', hc⟩ := h.steps hrun (fun _ _ _ _ _ => by rw [hp]; trivial)
  refine ⟨g', hsteps, ⟨(hsteps.inv_ext h.inv).2, fun _ _ hpr => ?_⟩, hp'.trans hp, hc⟩
  rw [hp']
  exact hpr

/-- Between two states the saved term is the one in memory. -/
theorem Coupled.term_eq (h : Coupled svc s g) (hp : Prompt s) (q : Fin n) :
    g.core.term q = (s.proc q).rf.currentTerm := by
  rw [← (h.node q).dur.term, hp.synced q]
  rfl

/-- Of two appends of one leader in one term the earlier one carries no more and commits no more. -/
theorem Coupled.built_in_order {u₁ u₂ : Cluster n C D} {g₁ g₂ : Ghost n C D}
    (hc₁ : Coupled svc u₁ g₁) (hc₂ : Coupled svc u₂ g₂) (hg : g₁ ≤ g₂)
    (hrun : (system n svc).Run u₁ tr u₂) {a q₁ q₂ : Fin n} {args₁ args₂ : AppendEntryArgs n C}
    (hb₁ : (u₁.proc a).rf.doSendAppendEntry q₁ = some (.append args₁))
    (hb₂ : (u₂.proc a).rf.doSendAppendEntry q₂ = some (.append args₂))
    (hterm : args₁.term = args₂.term) :
    g₁.core.log a <+: g₂.core.log a ∧ args₁.leaderCommit ≤ args₂.leaderCommit := by
  obtain ⟨hs₁, ht₁, hcommit₁, -⟩ := (hc₁.node a).sends hc₁.inv hb₁
  obtain ⟨hs₂, ht₂, hcommit₂, -⟩ := (hc₂.node a).sends hc₂.inv hb₂
  obtain ⟨hl₁, -, hlog₁⟩ := (hc₁.node a).leads hc₁.inv hs₁
  obtain ⟨hl₂, -, hlog₂⟩ := (hc₂.node a).leads hc₂.inv hs₂
  rw [← ht₁, hterm] at hl₁ hlog₁
  rw [← ht₂] at hl₂ hlog₂
  constructor
  · rw [hlog₁, hlog₂]
    exact hg.1.llog args₂.term
  · -- one incarnation leads the term, so its commit index has not gone back
    have hlife : (u₂.proc a).incarnation = (u₁.proc a).incarnation := by
      have hleader := hl₂.symm.trans (hg.1.leader hl₁)
      simpa using hleader
    rw [hcommit₁, hcommit₂]
    exact (Run.later hrun a).commit hlife

/-- The peer after the step in which it handles an append. -/
theorem proc_of_append {w w' : Cluster n C D} {l : Nat} {m : Rpc n C D} {args : AppendEntryArgs n C}
    (hstep : (system n svc).step w (.event (.handle l)) w') (hm : w.net[l]? = some m)
    (hpay : m.payload = .appendReq args) :
    w'.proc m.server = { w.proc m.server with rf := ((w.proc m.server).rf.appendEntry args).1 } := by
  obtain ⟨-, hexec⟩ := hstep
  simp only [Cluster.step, Cluster.exec, hm, Option.map_some, Option.some.injEq] at hexec
  rw [← hexec, handle_append hpay]

/-- If a leader builds `args₁` no later than `args₂`, in the same term, and a follower has answered
`args₂` with success, then handling `args₁` at any later moment of that term, with no restart of the
follower in between, leaves its log, its commit index and its persister as they are. -/
theorem old_append_harmless (h : Run svc tr s) {a b : Fin n} {args₁ args₂ : AppendEntryArgs n C}
    {i j k : Nat} (h₁ : BuiltAt tr i a args₁) (h₂ : BuiltAt tr j a args₂) (hij : i ≤ j)
    (hterm : args₁.term = args₂.term) (hjk : j < k)
    (hanswered : AnsweredAt tr k b (s.proc b).incarnation args₂)
    (hnow : (s.proc b).rf.currentTerm = args₂.term) :
    ((s.proc b).rf.appendEntry args₁).1.logs = (s.proc b).rf.logs ∧
      ((s.proc b).rf.appendEntry args₁).1.commitIndex = (s.proc b).rf.commitIndex ∧
      ((s.proc b).rf.appendEntry args₁).1.persister = (s.proc b).rf.persister := by
  obtain ⟨u₁, q₁, hu₁, hb₁⟩ := h₁
  obtain ⟨u₂, q₂, hu₂, hb₂⟩ := h₂
  obtain ⟨w, l, m, hw, hm, rfl, hpay, hlife, hsucc⟩ := hanswered
  obtain ⟨w', hw', hstep⟩ := h.visited_succ hw
  -- the run, cut at the moments that matter
  have hrun₁ := (h.at_visited (visited_of_step hu₁)).1
  have hrun₂ := h.between hij (visited_of_step hu₁) (visited_of_step hu₂)
  have hrunw := h.between hjk.le (visited_of_step hu₂) (visited_of_step hw)
  have hrunw' := Lts.Run.single hstep
  have hruns := (h.at_visited hw').2
  obtain ⟨g₁, -, -, hp₁, hc₁⟩ := (coupled_initial (fun _ _ => True)).goes_on rfl hrun₁
  obtain ⟨g₂, -, hg₂, hp₂, hc₂⟩ := hc₁.goes_on hp₁ hrun₂
  obtain ⟨gw, -, hgw, hpw, hcw⟩ := hc₂.goes_on hp₂ hrunw
  obtain ⟨gw', -, hgw', hpw', hcw'⟩ := hcw.goes_on hpw hrunw'
  obtain ⟨gs, hsteps, hgs, -, hcs⟩ := hcw'.goes_on hpw' hruns
  obtain ⟨hpre, hcommit⟩ := hc₁.built_in_order hc₂ hg₂ hrun₂ hb₁ hb₂ hterm
  obtain ⟨-, -, -, hok₁⟩ := (hc₁.node a).sends hc₁.inv hb₁
  obtain ⟨-, -, hcommit₂, hok₂⟩ := (hc₂.node a).sends hc₂.inv hb₂
  -- the follower right after its answer
  have hproc := proc_of_append hstep hm hpay
  have hnw' := hcw'.node m.server
  rw [hproc] at hnw'
  obtain ⟨hstored, hterm', hle⟩ :=
    (hcw.node m.server).stored hcw.inv (hok₂.mono hgw.1) hsucc hgw' hcw'.inv hnw'
  have hle' : args₂.leaderCommit ≤ (w'.proc m.server).rf.commitIndex := by
    rw [hproc]
    rwa [min_eq_left (hcommit₂ ▸ (hc₂.node a).log.commit_le)] at hle
  have hT' : gw'.core.term m.server = args₂.term := by
    rw [hcw'.term_eq (h.prompt w' (List.mem_of_getElem? hw')), hproc]
    exact hterm'
  have hT : gs.core.term m.server = args₂.term := by
    rw [hcs.term_eq (h.prompt s (List.mem_append_right _ (List.mem_singleton_self s)))]
    exact hnow
  -- and at the end of the run, still in the term and in the incarnation
  have hext₂ : g₂.core.Ext gw'.core := hgw.1.trans hgw'.1
  have hkept : g₂.core.log a <+: gs.core.log m.server :=
    hsteps.keeps_log hcw'.inv hT' hT (hok₂.2.1.trans (hext₂.llog _)) hstored
  have hlater : (w'.proc m.server).rf.commitIndex ≤ (s.proc m.server).rf.commitIndex := by
    refine (Run.later hruns m.server).commit ?_
    rw [hproc]
    exact hlife.symm
  have hext₁ : g₁.core.Ext gs.core := (hg₂.1.trans hext₂).trans hgs.1
  have hidle := (hcs.node m.server).log.appendEntry_idle hcs.inv (hok₁.mono hext₁) (hpre.trans hkept)
    (hnow.trans hterm.symm) (hcommit.trans (hle'.trans hlater))
  rw [hidle]
  exact ⟨rfl, rfl, rfl⟩

/-- The leader of the sample sends its first entry twice, a second command in between: once the
follower has answered the later message, the earlier one changes nothing. -/
theorem old_append_harmless_overtaken :
    let as : List SampleAction := electing ++ [.event (.start 0 (some 7)), .event (.send 0 1),
      .event (.start 0 (some 8)), .event (.send 0 1), .event (.handle 0)]
    let s := sampleAt as
    (∃ m ∈ s.net, m.payload = .appendReq ⟨1, 0, 0, 0, [⟨some 7, 1, 1⟩], 0⟩) ∧
      (s.proc 1).rf.getLatestLog.index = 2 ∧
      ((s.proc 1).rf.appendEntry ⟨1, 0, 0, 0, [⟨some 7, 1, 1⟩], 0⟩).1.logs = (s.proc 1).rf.logs := by
  have hrun := sample_run (electing ++ [.event (.start 0 (some 7)), .event (.send 0 1),
    .event (.start 0 (some 8)), .event (.send 0 1), .event (.handle 0)]) (by decide)
  have hharmless := old_append_harmless hrun (a := 0) (b := 1) (i := 4) (j := 6) (k := 7)
    ⟨_, 1, rfl, rfl⟩ ⟨_, 1, rfl, rfl⟩ (by decide) (by decide) (by decide)
    ⟨_, 0, _, rfl, rfl, rfl, rfl, rfl, rfl⟩ (by decide)
  exact ⟨⟨_, List.mem_of_getElem? (i := 1) rfl, rfl⟩, by decide, hharmless.1⟩

end DistSys.Raft1
