import Masala.Daemon.Cron
import Masala.Daemon.Message
import Masala.Routing.Directory

/-!
# The daemon drives the table machine

Whatever a function of the daemon does, the configuration stays, and the table
makes some changes of the table machine. Most functions do not touch the table
at all; `nbhd_*` functions only touch it in their own few places.
-/
namespace Masala.Daemon
open Library Container Bencode Routing Session

/-- Configuration, table and clock are the same. -/
structure Quiet (m m' : Main) : Prop where
  conf : m'.conf = m.conf
  nbhd : m'.nbhd = m.nbhd
  clock : m'.p2p.time_now = m.p2p.time_now

/-- What may differ are the session cache, the database, random numbers, messages, log lines and
timers. -/
structure Aside (m m' : Main) : Prop where
  conf : m'.conf = m.conf
  nbhd : m'.nbhd = m.nbhd
  clock : m'.p2p.time_now = m.p2p.time_now
  lkps : m'.lkps = m.lkps
  announce : m'.announce = m.announce
  calls : m'.calls = m.calls

/-- What the functions of `lookup.c` keep. -/
structure Looked (m m' : Main) : Prop extends Quiet m m' where
  announce : m'.announce = m.announce

/-- What the functions of `announce.c` keep. -/
structure Announced (m m' : Main) : Prop extends Quiet m m' where
  lkps : m'.lkps = m.lkps
  calls : m'.calls = m.calls

/-- The configuration is the same and the table went through some changes. -/
structure Moved (m m' : Main) : Prop where
  conf : m'.conf = m.conf
  nbhd : Changes m.conf.node_id m.nbhd m'.nbhd

/-- The table invariant for the id of the node. -/
def InOrder (m : Main) : Prop := Ordered m.conf.node_id m.nbhd

section Relations
variable {m m' m'' : Main}

theorem Quiet.refl (m : Main) : Quiet m m := ⟨rfl, rfl, rfl⟩

theorem Quiet.trans (h : Quiet m m') (h' : Quiet m' m'') : Quiet m m'' :=
  ⟨h'.conf.trans h.conf, h'.nbhd.trans h.nbhd, h'.clock.trans h.clock⟩

theorem Looked.refl (m : Main) : Looked m m := ⟨.refl m, rfl⟩

theorem Looked.trans (h : Looked m m') (h' : Looked m' m'') : Looked m m'' :=
  ⟨h.toQuiet.trans h'.toQuiet, h'.announce.trans h.announce⟩

theorem Announced.refl (m : Main) : Announced m m := ⟨.refl m, rfl, rfl⟩

theorem Announced.trans (h : Announced m m') (h' : Announced m' m'') : Announced m m'' :=
  ⟨h.toQuiet.trans h'.toQuiet, h'.lkps.trans h.lkps, h'.calls.trans h.calls⟩

theorem Aside.refl (m : Main) : Aside m m := ⟨rfl, rfl, rfl, rfl, rfl, rfl⟩

theorem Aside.trans (h : Aside m m') (h' : Aside m' m'') : Aside m m'' :=
  ⟨h'.conf.trans h.conf, h'.nbhd.trans h.nbhd, h'.clock.trans h.clock, h'.lkps.trans h.lkps,
    h'.announce.trans h.announce, h'.calls.trans h.calls⟩

theorem Aside.quiet (h : Aside m m') : Quiet m m' := ⟨h.conf, h.nbhd, h.clock⟩

theorem Aside.looked (h : Aside m m') : Looked m m' := ⟨h.quiet, h.announce⟩

theorem Aside.announced (h : Aside m m') : Announced m m' := ⟨h.quiet, h.lkps, h.calls⟩

theorem Quiet.moved (h : Quiet m m') : Moved m m' := ⟨h.conf, h.nbhd ▸ .refl⟩

theorem Moved.refl (m : Main) : Moved m m := ⟨rfl, .refl⟩

theorem Moved.trans (h : Moved m m') (h' : Moved m' m'') : Moved m m'' := by
  refine ⟨h'.conf.trans h.conf, h.nbhd.trans ?_⟩
  rw [← h.conf]
  exact h'.nbhd

theorem Moved.inOrder (h : Moved m m') (hm : InOrder m) : InOrder m' := by
  rw [InOrder, h.conf]
  exact h.nbhd.ordered hm

theorem Moved.clean (h : Moved m m') (hm : ∃ cs, Clean m.nbhd cs) : ∃ cs, Clean m'.nbhd cs :=
  h.nbhd.clean hm

theorem Aside.bind {x : Exec Main} {f : Main → Exec Main} (hx : Ensures x (Aside m))
    (hf : ∀ m', Ensures (f m') (Aside m')) : Ensures (x >>= f) (Aside m) :=
  hx.bind fun m' h => (hf m').mono fun _ h' => h.trans h'

theorem Looked.bind {x : Exec Main} {f : Main → Exec Main} (hx : Ensures x (Looked m))
    (hf : ∀ m', Ensures (f m') (Looked m')) : Ensures (x >>= f) (Looked m) :=
  hx.bind fun m' h => (hf m').mono fun _ h' => h.trans h'

theorem Announced.bind {x : Exec Main} {f : Main → Exec Main} (hx : Ensures x (Announced m))
    (hf : ∀ m', Ensures (f m') (Announced m')) : Ensures (x >>= f) (Announced m) :=
  hx.bind fun m' h => (hf m').mono fun _ h' => h.trans h'

theorem Moved.bind {x : Exec Main} {f : Main → Exec Main} (hm : InOrder m)
    (hx : Ensures x (Moved m)) (hf : ∀ m', InOrder m' → Ensures (f m') (Moved m')) :
    Ensures (x >>= f) (Moved m) :=
  hx.bind fun m' h => (hf m' (h.inOrder hm)).mono fun _ h' => h.trans h'

end Relations

/-! ## Messages -/

section Send
variable (sa : Ip) (m : Main)

theorem emit_aside (datagram : Bytes) : Aside m (m.emit sa datagram) := by
  rw [Main.emit]
  by_cases hs : m.udp.sockfd < 0
  · rw [if_pos hs]
    exact .refl m
  · rw [if_neg hs]
    exact ⟨rfl, rfl, rfl, rfl, rfl, rfl⟩

theorem randUrandom_aside : Ensures (randUrandom m) fun r => Aside m r.2 := by
  rw [randUrandom]
  cases m.urandom m.reads with
  | none => exact ensures_error
  | some buffer => exact ensures_ok.mpr ⟨rfl, rfl, rfl, rfl, rfl, rfl⟩

theorem emit_log_aside (datagram : Bytes) (format : String) (args : List LogArg) :
    Aside m ((m.emit sa datagram).logInfo format args) :=
  (emit_aside sa m datagram).trans ⟨rfl, rfl, rfl, rfl, rfl, rfl⟩

theorem request_aside (type : ℤ) (body : Body) (format : String) (args : List LogArg) :
    Ensures (do
      let (session_id, m) ← newSession type m
      return (m.emit sa (Message.datagram ⟨m.conf.node_id, session_id, body⟩)).logInfo format args)
      (Aside m) := by
  refine (newSession_ensures type m).bind ?_
  rintro ⟨session_id, m'⟩ ⟨-, cache, rfl⟩
  have hnew : Aside m { m with reads := m.reads + 1, cache := cache } :=
    ⟨rfl, rfl, rfl, rfl, rfl, rfl⟩
  exact ensures_ok.mpr (hnew.trans (emit_log_aside sa _ _ _ _))

theorem sendPing_aside (type : ℤ) : Ensures (sendPing sa type m) (Aside m) := by
  rw [sendPing_eq]
  exact request_aside sa m type _ _ _

theorem sendPong_aside (session_id : Id) : Ensures (sendPong sa session_id m) (Aside m) := by
  rw [sendPong_eq]
  exact ensures_ok.mpr (emit_log_aside sa m _ _ _)

theorem sendAnnounce_aside (lkp_id host_id : Id) :
    Ensures (sendAnnounce sa lkp_id host_id m) (Aside m) := by
  rw [sendAnnounce_eq]
  exact request_aside sa m SEND_UNICAST _ _ _

theorem sendFind_aside (node_id : Id) : Ensures (sendFind sa node_id m) (Aside m) := by
  rw [sendFind_eq]
  exact request_aside sa m SEND_UNICAST _ _ _

theorem sendLookup_aside (node_id lkp_id : Id) :
    Ensures (sendLookup sa node_id lkp_id m) (Aside m) := by
  rw [sendLookup_eq]
  exact request_aside sa m SEND_UNICAST _ _ _

theorem sendValue_aside (value : Ip) (session_id lkp_id : Id) :
    Ensures (sendValue sa value session_id lkp_id m) (Aside m) := by
  rw [sendValue_eq]
  exact ensures_ok.mpr (emit_log_aside sa m _ _ _)

theorem sendNode_aside (b : Buck) (session_id : Id) (lkp_id : Option Id) (reply_type : ReplyType) :
    Ensures (sendNode sa b session_id lkp_id reply_type m) (Aside m) := by
  refine ensures_then fun dict => ?_
  rw [sendDict_eq]
  exact ensures_ok.mpr (emit_log_aside sa m _ _ _)

theorem nbhdSend_aside (node_id : Id) (lkp_id : Option Id) (session_id : Id)
    (reply_type : ReplyType) : Ensures (nbhdSend sa node_id lkp_id session_id reply_type m)
      (Aside m) := by
  refine ensures_then fun i => ?_
  cases i with
  | none => exact ensures_ok.mpr (.refl m)
  | some i => exact ensures_then fun b => sendNode_aside sa m b.val session_id lkp_id reply_type

end Send

/-! ## Lookups, announcements and the database -/

section Requests

theorem lkpRemember_looked (i : Ptr) (node_id : Id) (m : Main) :
    Ensures (lkpRemember i node_id m) (Looked m) :=
  ensures_then fun _ => ensures_then fun _ => ensures_then fun _ =>
    ensures_ok.mpr ⟨⟨rfl, rfl, rfl⟩, rfl⟩

theorem announceRemember_announced (i : Ptr) (node_id : Id) (m : Main) :
    Ensures (announceRemember i node_id m) (Announced m) :=
  ensures_then fun _ => ensures_then fun _ => ensures_then fun _ =>
    ensures_ok.mpr ⟨⟨rfl, rfl, rfl⟩, rfl, rfl⟩

/-- What asking a node keeps is kept by asking a bucket. -/
theorem askBucket_keeps {R : Main → Main → Prop} (hrefl : ∀ m, R m m)
    (htrans : ∀ {m m' m''}, R m m' → R m' m'' → R m m'') {ask : Routing.Node → Main → Exec Main}
    (hask : ∀ n m, Ensures (ask n m) (R m)) (id : Id) (m : Main) :
    Ensures (askBucket id ask m) (R m) := by
  have hwalk : ∀ nodes k item_n m, Ensures (askNodes nodes ask k item_n m) (R m) := by
    intro nodes k
    induction k with
    | zero => exact fun _ m => ensures_ok.mpr (hrefl m)
    | succ k ih =>
      intro item_n m
      refine ensures_then fun n => (hask n.val m).bind fun m' h => ensures_then fun next => ?_
      exact (ih next m').mono fun _ h' => htrans h h'
  refine ensures_then fun item_b => ?_
  cases item_b with
  | none => exact ensures_ok.mpr (hrefl m)
  | some item_b => exact ensures_then fun b => hwalk _ _ _ m

theorem nbhdLookup_looked (i : Ptr) (m : Main) : Ensures (nbhdLookup i m) (Looked m) :=
  ensures_then fun _ => askBucket_keeps Looked.refl Looked.trans (fun n m =>
    Looked.bind (lkpRemember_looked i n.id m) fun m' =>
      (sendLookup_aside n.c_addr m' _ _).mono fun _ h => h.looked) _ m

theorem nbhdAnnounce_announced (i : Ptr) (host_id : Id) (m : Main) :
    Ensures (nbhdAnnounce i host_id m) (Announced m) :=
  ensures_then fun _ => askBucket_keeps Announced.refl Announced.trans (fun n m =>
    Announced.bind (announceRemember_announced i n.id m) fun m' =>
      (sendAnnounce_aside n.c_addr m' _ _).mono fun _ h => h.announced) _ m

theorem lkpPut_looked (find_id : Id) (callback : Option ℕ) (ctx : ℕ) (m : Main) :
    Ensures (lkpPut find_id callback ctx m) (Looked m) := by
  refine (randUrandom_aside m).bind fun r hr => ensures_then fun put => ensures_then fun hash => ?_
  have hput : Looked r.2 { r.2 with lkps := ⟨put.1, hash⟩ } := ⟨⟨rfl, rfl, rfl⟩, rfl⟩
  exact (nbhdLookup_looked put.2 _).mono fun _ h => hr.looked.trans (hput.trans h)

theorem lkpDel_looked (i : Ptr) (m : Main) : Ensures (lkpDel i m) (Looked m) :=
  ensures_then fun _ => ensures_then fun _ => ensures_then fun _ =>
    ensures_ok.mpr ⟨⟨rfl, rfl, rfl⟩, rfl⟩

theorem call_looked (l : Lookup) (node_id : Id) (address : Option (Octets 16)) (m : Main) :
    Looked m (l.call node_id address m) := by
  rw [Lookup.call]
  cases l.callback with
  | none => exact .refl m
  | some callback => exact ⟨⟨rfl, rfl, rfl⟩, rfl⟩

theorem lkpDel_call_looked (i : Ptr) (l : Lookup) (node_id : Id) (address : Option (Octets 16))
    (m : Main) : Ensures (lkpDel i (l.call node_id address m)) (Looked m) :=
  (lkpDel_looked i _).mono fun _ h => (call_looked l node_id address m).trans h

theorem lkpExpire_looked (m : Main) : Ensures (lkpExpire m) (Looked m) := by
  have hloop : ∀ fuel item m, Ensures (lkpExpireLoop fuel item m) (Looked m) := by
    intro fuel
    induction fuel with
    | zero =>
      intro item m
      cases item with
      | none => exact ensures_ok.mpr (.refl m)
      | some i => exact ensures_error
    | succ fuel ih =>
      intro item m
      cases item with
      | none => exact ensures_ok.mpr (.refl m)
      | some i =>
        refine ensures_then fun l => ensures_then fun next => ensures_ite (fun _ => ?_) fun _ => ?_
        · exact Looked.bind (lkpDel_call_looked i l.val _ _ m) fun m' => ih next m'
        · exact ih next m
  exact hloop _ _ m

theorem lkpResolve_looked (lkp_id node_id : Id) (c_addr : Ip) (m : Main) :
    Ensures (lkpResolve lkp_id node_id c_addr m) (Looked m) := by
  refine ensures_then fun i => ?_
  cases i with
  | none => exact ensures_ok.mpr (.refl m)
  | some i =>
    refine ensures_then fun l => ensures_then fun known => ensures_ite (fun _ => ?_) fun _ => ?_
    · exact ensures_ok.mpr (.refl m)
    · refine ensures_ite (fun _ => lkpRemember_looked i node_id m) fun _ => ?_
      exact Looked.bind ((sendLookup_aside c_addr m _ _).mono fun _ h => h.looked) fun m' =>
        lkpRemember_looked i node_id m'

theorem lkpSuccess_looked (lkp_id node_id : Id) (address : Octets 16) (m : Main) :
    Ensures (lkpSuccess lkp_id node_id address m) (Looked m) := by
  refine ensures_then fun i => ?_
  cases i with
  | none => exact ensures_ok.mpr (.refl m)
  | some i => exact ensures_then fun l => lkpDel_call_looked i l.val _ _ m

theorem announcePut_announced (lkp_id host_id : Id) (m : Main) :
    Ensures (announcePut lkp_id host_id m) (Announced m) := by
  refine ensures_then fun r => ensures_then fun hash => ?_
  have hput : Announced m { m with announce := ⟨r.1, hash⟩ } := ⟨⟨rfl, rfl, rfl⟩, rfl, rfl⟩
  exact (nbhdAnnounce_announced r.2 host_id _).mono fun _ h => hput.trans h

theorem announceDel_announced (i : Ptr) (m : Main) : Ensures (announceDel i m) (Announced m) :=
  ensures_then fun _ => ensures_then fun _ => ensures_then fun _ =>
    ensures_ok.mpr ⟨⟨rfl, rfl, rfl⟩, rfl, rfl⟩

theorem announceExpire_announced (m : Main) : Ensures (announceExpire m) (Announced m) := by
  have hloop : ∀ fuel item m, Ensures (announceExpireLoop fuel item m) (Announced m) := by
    intro fuel
    induction fuel with
    | zero =>
      intro item m
      cases item with
      | none => exact ensures_ok.mpr (.refl m)
      | some i => exact ensures_error
    | succ fuel ih =>
      intro item m
      cases item with
      | none => exact ensures_ok.mpr (.refl m)
      | some i =>
        refine ensures_then fun a => ensures_then fun n => ensures_ite (fun _ => ?_) fun _ => ?_
        · exact Announced.bind (announceDel_announced i m) fun m' => ih n m'
        · exact ih n m
  exact hloop _ _ m

theorem announceResolve_announced (lkp_id node_id : Id) (c_addr : Ip) (m : Main) :
    Ensures (announceResolve lkp_id node_id c_addr m) (Announced m) := by
  refine ensures_then fun i => ?_
  cases i with
  | none => exact ensures_ok.mpr (.refl m)
  | some i =>
    refine ensures_then fun a => ensures_then fun known => ensures_ite (fun _ => ?_) fun _ => ?_
    · exact ensures_ok.mpr (.refl m)
    · refine ensures_ite (fun _ => ?_) fun _ => announceRemember_announced i node_id m
      exact Announced.bind ((sendAnnounce_aside c_addr m _ _).mono fun _ h => h.announced)
        fun m' => announceRemember_announced i node_id m'

theorem dbUpdate_aside (i : Ptr) (sa : Ip) (m : Main) : Ensures (dbUpdate i sa m) (Aside m) :=
  ensures_then fun _ => ensures_then fun _ => ensures_ok.mpr ⟨rfl, rfl, rfl, rfl, rfl, rfl⟩

theorem dbPut_aside (host_id : Id) (sa : Ip) (m : Main) :
    Ensures (dbPut host_id sa m) (Aside m) := by
  refine ensures_then fun i => ?_
  cases i with
  | none =>
    refine ensures_then fun r => ensures_then fun hash => ?_
    exact (dbUpdate_aside r.2 sa _).mono fun _ h =>
      ⟨h.conf, h.nbhd, h.clock, h.lkps, h.announce, h.calls⟩
  | some i => exact dbUpdate_aside i sa m

theorem dbDel_aside (i : Ptr) (m : Main) : Ensures (dbDel i m) (Aside m) :=
  ensures_then fun _ => ensures_then fun _ => ensures_then fun _ =>
    ensures_ok.mpr ⟨rfl, rfl, rfl, rfl, rfl, rfl⟩

theorem dbExpire_aside (m : Main) : Ensures (dbExpire m) (Aside m) := by
  have hloop : ∀ fuel j i m, Ensures (dbExpireLoop fuel j i m) (Aside m) := by
    intro fuel
    induction fuel with
    | zero => exact fun _ _ _ => ensures_error
    | succ fuel ih =>
      intro j i m
      refine ensures_ite (fun _ => ?_) fun _ => ensures_ok.mpr (.refl m)
      cases i with
      | none => exact ensures_error
      | some i =>
        refine ensures_then fun db => ensures_then fun n => ensures_ite (fun _ => ?_) fun _ => ?_
        · refine (dbDel_aside i m).bind fun m' h => ?_
          exact (ih _ n _).mono fun _ h' => h.trans
            ⟨h'.conf, h'.nbhd, h'.clock, h'.lkps, h'.announce, h'.calls⟩
        · exact ih _ n m
  exact hloop _ _ _ m

theorem dbSend_aside (sa : Ip) (host_id lkp_id session_id : Id) (m : Main) :
    Ensures (dbSend sa host_id lkp_id session_id m) fun r => Aside m r.1 := by
  refine ensures_then fun i => ?_
  cases i with
  | none => exact ensures_ok.mpr (.refl m)
  | some i =>
    refine ensures_then fun db => (sendValue_aside sa m _ _ _).bind fun m' h => ?_
    exact ensures_ok.mpr h

end Requests
end Masala.Daemon
