import Subcontexts.Ipc.Send
import Mathlib.Data.List.Perm.Subperm

/-! The sockets of the processes that run `ipc_send`: the list of the service while one of them adds
its struct to it and others walk along it, and what each of them has of its own there. -/

namespace Subcontexts.Send
open Registry (Pid findEntry)
open Ipc (Addr Args At Entry Func Image Memory Sock SockaddrUn SockType Walk postings)

section Memory
variable {m : Memory} {l l' : List Addr} {a b : Addr} {cur : Option Addr}

/-- The list of sockets, and at most one struct that is not complete. -/
structure Sound (m : Memory) (l : List Addr) : Prop where
  holds : m.linked.Holds l
  lt_used : ∀ a ∈ l, a < m.used
  settled : ∀ a < m.used, (m.sock a).type ≠ none →
    a ∈ l ∧ 0 < (m.sock a).sockNo ∧ (m.sock a).sockNo < m.nextSockNo
  distinct : ∀ a < m.used, ∀ b < m.used, (m.sock a).type ≠ none →
    (m.sock b).sockNo = (m.sock a).sockNo → b = a
  single : ∀ a < m.used, ∀ b < m.used, (m.sock a).type = none → (m.sock b).type = none → a = b
  pos : 0 < m.nextSockNo

theorem Sound.length_le (S : Sound m l) : l.length ≤ m.used := by
  have hsub : l ⊆ List.range m.used := fun a ha => List.mem_range.mpr (S.lt_used a ha)
  have hle := (List.subperm_of_subset S.holds.nodup hsub).length_le
  rwa [List.length_range] at hle

def Raw (m : Memory) (a : Addr) : Prop := a < m.used ∧ (m.sock a).type = none

def Made (m : Memory) (l : List Addr) : At → Prop
  | .malloc => True
  | .readHead a => Raw m a ∧ a ∉ l ∧ m.nextSockNo < 2 ^ 31 - 1
  | .writeHead a =>
    Raw m a ∧ a ∉ l ∧ m.nextSockNo < 2 ^ 31 - 1 ∧ (m.sock a).nextSock = m.activeSocketList
  | .readNo a => Raw m a ∧ a ∈ l ∧ m.nextSockNo < 2 ^ 31 - 1
  | .writeNo a no => Raw m a ∧ a ∈ l ∧ m.nextSockNo < 2 ^ 31 - 1 ∧ no = m.nextSockNo
  | .readNext a =>
    Raw m a ∧ a ∈ l ∧ m.nextSockNo < 2 ^ 31 - 1 ∧ (m.sock a).sockNo = m.nextSockNo
  | .writeNext a no => Raw m a ∧ a ∈ l ∧ m.nextSockNo < 2 ^ 31 - 1 ∧
    (m.sock a).sockNo = m.nextSockNo ∧ no = m.nextSockNo
  | .setNew a => Raw m a ∧ a ∈ l ∧ 0 < (m.sock a).sockNo ∧ (m.sock a).sockNo < m.nextSockNo
  | .result a => a < m.used ∧ (m.sock a).type = some .NEW
  | _ => False

def struct : At → Option Addr
  | .readHead a | .writeHead a | .readNo a | .writeNo a _ | .readNext a | .writeNext a _
  | .setNew a | .result a => some a
  | _ => none

theorem Made.lt_used {place : At} (M : Made m l place) (h : struct place = some a) : a < m.used := by
  cases place with
  | readHead b | writeHead b | readNo b | writeNo b no | readNext b | writeNext b no | setNew b =>
    obtain rfl := Option.some.inj h
    exact M.1.1
  | result b =>
    obtain rfl := Option.some.inj h
    exact M.1
  | _ => cases h

def Call.walk : Call → Option Walk
  | .socket => none
  | .bind => some .bind
  | .listen | .accept => some .listen

def Leads (l : List Addr) (cur : Option Addr) (a : Addr) : Prop :=
  ∃ pre suf, l = pre ++ suf ∧ suf.head? = cur ∧ a ∈ suf

def Looks (l : List Addr) (a : Addr) (k : Call) : At → Prop
  | .first w => k.walk = some w
  | .sockNo w cur => k.walk = some w ∧ Leads l cur a
  | .next w cur => k.walk = some w ∧ Leads l (some cur) a ∧ cur ≠ a
  | .type w b => k.walk = some w ∧ b = a
  | .setBind b => k = .bind ∧ b = a
  | .copy b => k = .bind ∧ b = a
  | .setListen b => k = .listen ∧ b = a
  | _ => False

theorem Leads.suffix (h : Leads l cur a) (hl : l <:+ l') : Leads l' cur a := by
  obtain ⟨new, rfl⟩ := hl
  obtain ⟨pre, suf, rfl, hcur, ha⟩ := h
  exact ⟨new ++ pre, suf, (List.append_assoc ..).symm, hcur, ha⟩

theorem Looks.suffix {k : Call} {place : At} (h : Looks l a k place) (hl : l <:+ l') :
    Looks l' a k place := by
  cases place with
  | sockNo w cur => exact ⟨h.1, h.2.suffix hl⟩
  | next w cur => exact ⟨h.1, h.2.1.suffix hl, h.2.2⟩
  | _ => exact h

def Ready (path : List UInt8) (k : Sock) : Call → Prop
  | .socket => False
  | .bind => k.type = some .NEW
  | .listen => k.type = some .BIND ∧ k.addr = path
  | .accept => k.type = some .LISTEN ∧ k.addr = path

def Held (c : Sender) (k : Sock) : Prop :=
  match c.pc with
  | .call x => c.path.length < sunPathSize ∧ Ready c.path k x
  | .inside _ (.copy _) => c.path.length < sunPathSize ∧ k.type = some .BIND
  | .inside x _ => c.path.length < sunPathSize ∧ Ready c.path k x
  | .returned rc =>
    c.path.length < sunPathSize ∧ rc = 3 ∧ k.type = some .LISTEN ∧ k.addr = c.path ∨
      sunPathSize ≤ c.path.length ∧ rc = 2 ∧ k.type = some .NEW
  | _ => False

def Own (m : Memory) (c : Sender) (a : Addr) : Prop :=
  c.serv ≠ 0 ∧ a < m.used ∧ (m.sock a).sockNo = c.serv ∧ (m.sock a).type ≠ none

def Pc.Bare : Pc → Prop
  | .inside _ _ | .todo => False
  | .call k => k = .socket
  | .returned rc => rc = 1 ∨ rc = 2 ∨ rc = 3
  | _ => True

inductive Place (m : Memory) (l : List Addr) (c : Sender) : Prop where
  | bare (hserv : c.serv = 0) (hpc : c.pc.Bare)
  | making (place : At) (hserv : c.serv = 0) (hpc : c.pc = .inside .socket place)
      (hmade : Made m l place)
  | owner (a : Addr) (hown : Own m c a) (hheld : Held c (m.sock a))
      (hlooks : ∀ k place, c.pc = .inside k place → Looks l a k place)

def Owns (m : Memory) (c : Sender) (a : Addr) : Prop :=
  (∃ k place, c.pc = .inside k place ∧ struct place = some a) ∨ Own m c a

theorem Place.lt_used {c : Sender} (P : Place m l c) (h : Owns m c a) : a < m.used := by
  rcases h with ⟨k, place, hpc, hstruct⟩ | hown
  · cases P with
    | bare hserv hbare =>
      rw [hpc] at hbare
      exact hbare.elim
    | making place' hserv hpc' hmade =>
      obtain ⟨-, rfl⟩ := Pc.inside.inj (hpc.symm.trans hpc')
      exact hmade.lt_used hstruct
    | owner b hown hheld hlooks =>
      have hlook := hlooks k place hpc
      cases place with
      | first | sockNo | next | type | setBind | copy | setListen => cases hstruct
      | _ => exact hlook.elim
  · exact hown.2.1

structure Kept (m m' : Memory) (l l' : List Addr) (c : Sender) : Prop where
  own : ∀ a, Own m c a → a < m'.used ∧ m'.sock a = m.sock a
  list : l <:+ l'
  made : ∀ place, c.pc = .inside .socket place → Made m l place → Made m' l' place

theorem Kept.refl (m : Memory) (l : List Addr) (c : Sender) : Kept m m l l c :=
  ⟨fun _ h => ⟨h.2.1, rfl⟩, List.suffix_refl l, fun _ _ h => h⟩

theorem Place.kept {m' : Memory} {c : Sender} (P : Place m l c) (K : Kept m m' l l' c) :
    Place m' l' c := by
  cases P with
  | bare hserv hpc => exact .bare hserv hpc
  | making place hserv hpc hmade => exact .making place hserv hpc (K.made place hpc hmade)
  | owner a hown hheld hlooks =>
    obtain ⟨hlt, hsock⟩ := K.own a hown
    refine .owner a ⟨hown.1, hlt, ?_, ?_⟩ (hsock ▸ hheld) fun k place hpc =>
      (hlooks k place hpc).suffix K.list
    · rw [hsock]
      exact hown.2.2.1
    · rw [hsock]
      exact hown.2.2.2

theorem Place.owns_of_kept {m' : Memory} {c : Sender} (P : Place m l c) (K : Kept m m' l l' c)
    (S : Sound m' l') (h : Owns m' c a) : Owns m c a := by
  rcases h with hstruct | ⟨hserv, hlt, hno, htype⟩
  · exact .inl hstruct
  · cases P with
    | bare hzero => exact absurd hzero hserv
    | making place hzero => exact absurd hzero hserv
    | owner b hown =>
      obtain ⟨hlt', hsock⟩ := K.own b hown
      have hno' : (m'.sock b).sockNo = (m'.sock a).sockNo := by
        rw [hsock, hno]
        exact hown.2.2.1
      obtain rfl := S.distinct a hlt b hlt' htype hno'
      exact .inr hown

end Memory

section Accesses
variable {m : Memory} {l : List Addr} {a : Addr}

theorem write_sock_self (m : Memory) (a : Addr) (c : Sock) : (m.write a c).sock a = c :=
  Function.update_self ..

theorem write_sock_of_ne (m : Memory) {a b : Addr} (c : Sock) (h : b ≠ a) :
    (m.write a c).sock b = m.sock b :=
  Function.update_of_ne h ..

theorem Sound.write (S : Sound m l) {c : Sock} (ha : a < m.used)
    (hnext : a ∈ l → c.nextSock = (m.sock a).nextSock)
    (hsettled : c.type ≠ none → a ∈ l ∧ 0 < c.sockNo ∧ c.sockNo < m.nextSockNo)
    (hraw : c.type = none → (m.sock a).type = none)
    (hno : ∀ b < m.used, b ≠ a → (m.sock b).type ≠ none ∨ c.type ≠ none →
      c.sockNo ≠ (m.sock b).sockNo) : Sound (m.write a c) l := by
  refine ⟨S.holds.congr rfl fun b hb => ?_, S.lt_used, fun b hb htype => ?_,
    fun b hb d hd htype heq => ?_, fun b hb d hd hbtype hdtype => ?_, S.pos⟩
  · show ((m.write a c).sock b).nextSock = (m.sock b).nextSock
    by_cases hba : b = a
    · subst hba
      rw [write_sock_self, hnext hb]
    · rw [write_sock_of_ne m c hba]
  · by_cases hba : b = a
    · subst hba
      rw [write_sock_self] at htype ⊢
      exact hsettled htype
    · rw [write_sock_of_ne m c hba] at htype ⊢
      exact S.settled b hb htype
  · by_cases hba : b = a
    · subst hba
      rw [write_sock_self] at htype heq
      by_contra hdb
      rw [write_sock_of_ne m c hdb] at heq
      exact hno d hd hdb (.inr htype) heq.symm
    · rw [write_sock_of_ne m c hba] at htype heq
      by_cases hda : d = a
      · subst hda
        rw [write_sock_self] at heq
        exact absurd heq (hno b hb hba (.inl htype))
      · rw [write_sock_of_ne m c hda] at heq
        exact S.distinct b hb d hd htype heq
  · have htype : ∀ e, ((m.write a c).sock e).type = none → (m.sock e).type = none := by
      intro e he
      by_cases hea : e = a
      · subst hea
        rw [write_sock_self] at he
        exact hraw he
      · rwa [write_sock_of_ne m c hea] at he
    exact S.single b hb d hd (htype b hbtype) (htype d hdtype)

theorem Sound.raw_ne (S : Sound m l) (ha : Raw m a) {b : Addr} (hb : b < m.used)
    (htype : (m.sock b).type ≠ none) : (m.sock a).sockNo ≠ (m.sock b).sockNo := by
  intro heq
  obtain rfl := S.distinct b hb a ha.1 htype heq
  exact htype ha.2

theorem Sound.malloc (S : Sound m l) (hlt : m.nextSockNo < 2 ^ 31 - 1)
    (hfull : ∀ a < m.used, (m.sock a).type ≠ none) :
    Sound { m.write m.used ⟨none, 0, none, []⟩ with used := m.used + 1 } l ∧
      Made { m.write m.used ⟨none, 0, none, []⟩ with used := m.used + 1 } l (.readHead m.used) := by
  have hnot : m.used ∉ l := fun h => Nat.lt_irrefl _ (S.lt_used _ h)
  have hself : (m.write m.used ⟨none, 0, none, []⟩).sock m.used = ⟨none, 0, none, []⟩ :=
    write_sock_self ..
  have hold : ∀ b < m.used, (m.write m.used ⟨none, 0, none, []⟩).sock b = m.sock b := fun b hb =>
    write_sock_of_ne m _ (Nat.ne_of_lt hb)
  have hcases : ∀ b < m.used + 1, b < m.used ∨ b = m.used := fun b hb =>
    Nat.lt_succ_iff_lt_or_eq.mp hb
  refine ⟨⟨S.holds.congr rfl fun b hb => ?_, fun b hb => Nat.lt_succ_of_lt (S.lt_used b hb),
    fun b hb htype => ?_, fun b hb d hd htype heq => ?_, fun b hb d hd hbtype hdtype => ?_, S.pos⟩,
    ⟨Nat.lt_succ_self _, ?_⟩, hnot, hlt⟩
  · show ((m.write m.used _).sock b).nextSock = (m.sock b).nextSock
    rw [hold b (S.lt_used b hb)]
  · simp only at htype ⊢
    rcases hcases b hb with hb | rfl
    · rw [hold b hb] at htype ⊢
      exact S.settled b hb htype
    · rw [hself] at htype
      exact absurd rfl htype
  · simp only at htype heq
    rcases hcases b hb with hb | rfl
    · rw [hold b hb] at htype heq
      rcases hcases d hd with hd | rfl
      · rw [hold d hd] at heq
        exact S.distinct b hb d hd htype heq
      · rw [hself] at heq
        exact absurd heq (Int.ne_of_lt (S.settled b hb htype).2.1)
    · rw [hself] at htype
      exact absurd rfl htype
  · simp only at hbtype hdtype
    have hfresh : ∀ e < m.used + 1,
        ((m.write m.used ⟨none, 0, none, []⟩).sock e).type = none → e = m.used := by
      intro e he htype
      rcases hcases e he with he | rfl
      · rw [hold e he] at htype
        exact absurd htype (hfull e he)
      · rfl
    rw [hfresh b hb hbtype, hfresh d hd hdtype]
  · show ((m.write m.used _).sock m.used).type = none
    rw [hself]

theorem Sound.readHead (S : Sound m l) (M : Made m l (.readHead a)) :
    Sound (m.write a { m.sock a with nextSock := m.activeSocketList }) l ∧
      Made (m.write a { m.sock a with nextSock := m.activeSocketList }) l (.writeHead a) := by
  obtain ⟨hraw, hnot, hlt⟩ := M
  refine ⟨S.write hraw.1 (fun h => absurd h hnot) (fun h => absurd hraw.2 h) (fun _ => hraw.2)
    fun b hb _ htype => S.raw_ne hraw hb (htype.resolve_right fun h => h hraw.2), ⟨hraw.1, ?_⟩, hnot,
    hlt, ?_⟩
  · rw [write_sock_self]
    exact hraw.2
  · rw [write_sock_self]
    rfl

theorem Sound.writeHead (S : Sound m l) (M : Made m l (.writeHead a)) :
    Sound { m with activeSocketList := some a } (a :: l) ∧
      Made { m with activeSocketList := some a } (a :: l) (.readNo a) := by
  obtain ⟨hraw, hnot, hlt, hnext⟩ := M
  refine ⟨⟨⟨rfl, ?_⟩, fun b hb => ?_, fun b hb htype => ?_, S.distinct, S.single, S.pos⟩, hraw,
    List.mem_cons_self .., hlt⟩
  · show Seg m.linked.next (m.sock a).nextSock l none
    rw [hnext]
    exact S.holds
  · rcases List.mem_cons.mp hb with rfl | hb
    · exact hraw.1
    · exact S.lt_used b hb
  · obtain ⟨hmem, hpos⟩ := S.settled b hb htype
    exact ⟨List.mem_cons_of_mem _ hmem, hpos⟩

theorem Sound.writeNo (S : Sound m l) {no : Int} (M : Made m l (.writeNo a no)) :
    Sound (m.write a { m.sock a with sockNo := no }) l ∧
      Made (m.write a { m.sock a with sockNo := no }) l (.readNext a) := by
  obtain ⟨hraw, hmem, hlt, rfl⟩ := M
  refine ⟨S.write hraw.1 (fun _ => rfl) (fun h => absurd hraw.2 h) (fun _ => hraw.2)
    fun b hb _ htype => ?_, ⟨hraw.1, ?_⟩, hmem, hlt, ?_⟩
  · have hbelow := (S.settled b hb (htype.resolve_right fun h => h hraw.2)).2.2
    exact (Int.ne_of_lt hbelow).symm
  · rw [write_sock_self]
    exact hraw.2
  · rw [write_sock_self]
    rfl

theorem Sound.writeNext (S : Sound m l) {no : Int} (M : Made m l (.writeNext a no)) :
    Sound { m with nextSockNo := (no + 1).bmod (2 ^ 32) } l ∧
      Made { m with nextSockNo := (no + 1).bmod (2 ^ 32) } l (.setNew a) := by
  obtain ⟨hraw, hmem, hlt, hno, rfl⟩ := M
  have hpos := S.pos
  have hnext : (m.nextSockNo + 1).bmod (2 ^ 32) = m.nextSockNo + 1 := by
    apply Int.bmod_eq_of_le
    · omega
    · omega
  rw [hnext]
  refine ⟨⟨S.holds, S.lt_used, fun b hb htype => ?_, S.distinct, S.single, ?_⟩, hraw, hmem, ?_, ?_⟩
  · obtain ⟨hlist, hno', hlt'⟩ := S.settled b hb htype
    exact ⟨hlist, hno', Int.lt_add_one_of_le (Int.le_of_lt hlt')⟩
  · show 0 < m.nextSockNo + 1
    omega
  · show 0 < (m.sock a).sockNo
    rw [hno]
    exact hpos
  · show (m.sock a).sockNo < m.nextSockNo + 1
    omega

theorem Sound.setNew (S : Sound m l) (M : Made m l (.setNew a)) :
    Sound (m.write a { m.sock a with type := some .NEW }) l ∧
      Made (m.write a { m.sock a with type := some .NEW }) l (.result a) := by
  obtain ⟨hraw, hmem, hpos, hlt⟩ := M
  refine ⟨S.write hraw.1 (fun _ => rfl) (fun _ => ⟨hmem, hpos, hlt⟩) (fun h => by cases h)
    fun b hb hba _ => S.raw_ne hraw hb fun h => hba (S.single b hb a hraw.1 h hraw.2), hraw.1, ?_⟩
  rw [write_sock_self]

theorem Sound.update (S : Sound m l) (ha : a < m.used) (htype : (m.sock a).type ≠ none) {c : Sock}
    (hnext : c.nextSock = (m.sock a).nextSock) (hno : c.sockNo = (m.sock a).sockNo)
    (hc : c.type ≠ none) : Sound (m.write a c) l := by
  refine S.write ha (fun _ => hnext) (fun _ => hno ▸ S.settled a ha htype) (fun h => absurd h hc)
    fun b hb hba _ heq => hba (S.distinct a ha b hb htype ?_)
  rw [← heq, hno]

theorem Kept.of_making {m' : Memory} {l' : List Addr} {c : Sender} (hown : ¬ Owns m c a)
    (hraw : ∀ b, Raw m b → b = a) (hsock : ∀ b < m.used, b ≠ a → m'.sock b = m.sock b)
    (hused : m.used ≤ m'.used) (hl : l <:+ l') : Kept m m' l l' c := by
  refine ⟨fun b hb => ⟨Nat.lt_of_lt_of_le hb.2.1 hused, hsock b hb.2.1 ?_⟩, hl,
    fun place hpc hmade => ?_⟩
  · rintro rfl
    exact hown (.inr hb)
  · have hstruct : struct place ≠ some a := fun h => hown (.inl ⟨_, place, hpc, h⟩)
    cases place with
    | malloc => trivial
    | result b =>
      have hba : b ≠ a := fun h => hstruct (congrArg some h)
      refine ⟨Nat.lt_of_lt_of_le hmade.1 hused, ?_⟩
      rw [hsock b hmade.1 hba]
      exact hmade.2
    | readHead b | writeHead b | readNo b | writeNo b no | readNext b | writeNext b no | setNew b =>
      exact absurd (congrArg some (hraw b hmade.1)) hstruct
    | _ => exact hmade.elim

theorem Kept.of_write {c : Sender} {k : Sock} (hown : ¬ Owns m c a)
    (htype : (m.sock a).type ≠ none) : Kept m (m.write a k) l l c := by
  have hraw : ∀ b, Raw m b → (m.write a k).sock b = m.sock b := by
    intro b hb
    refine write_sock_of_ne m k ?_
    rintro rfl
    exact htype hb.2
  refine ⟨fun b hb => ⟨hb.2.1, write_sock_of_ne m k ?_⟩, List.suffix_refl l, fun place hpc hmade => ?_⟩
  · rintro rfl
    exact hown (.inr hb)
  · cases place with
    | malloc => trivial
    | result b =>
      have hba : b ≠ a := by
        rintro rfl
        exact hown (.inl ⟨_, _, hpc, rfl⟩)
      refine ⟨hmade.1, ?_⟩
      rw [write_sock_of_ne m k hba]
      exact hmade.2
    | readHead b | writeHead b | readNo b | writeNo b no | readNext b | writeNext b no | setNew b =>
      have hb := hraw b hmade.1
      simp only [Made, Raw, hb] at hmade ⊢
      exact hmade
    | _ => exact hmade.elim

end Accesses

section Ranks

def behind (l : List Addr) : Option Addr → Nat
  | none => 0
  | some cur => (l.dropWhile (· ≠ cur)).length

def Call.writes : Call → Nat
  | .socket | .accept => 0
  | .bind => 2
  | .listen => 1

def accesses (B : Nat) (l : List Addr) (k : Call) : At → Nat
  | .malloc => 9
  | .readHead _ => 8
  | .writeHead _ => 7
  | .readNo _ => 6
  | .writeNo _ _ => 5
  | .readNext _ => 4
  | .writeNext _ _ => 3
  | .setNew _ => 2
  | .result _ => 1
  | .first _ => 2 + 2 * B + k.writes
  | .sockNo _ cur => 2 * behind l cur + 1 + k.writes
  | .next _ cur => 2 * behind l (some cur) + k.writes
  | .type _ _ => 1 + k.writes
  | .setBind _ => 2
  | .copy _ | .setListen _ => 1

def Call.rest (B : Nat) : Call → Nat
  | .socket => 12 + 6 * B
  | .bind => 7 + 4 * B
  | .listen => 3 + 2 * B
  | .accept => 0

def Call.rank (B : Nat) : Call → Nat
  | .socket => 22 + 6 * B
  | .bind => 12 + 6 * B
  | .listen => 7 + 4 * B
  | .accept => 3 + 2 * B

/-- The steps of its own that a process has left at most; `inside` is where it is in the registry's
functions. -/
def Pc.rank (B : Nat) (l : List Addr) (inside : Registry.Pc String) : Pc → Nat
  | .attach => 38 + 6 * B
  | .find left => 2 * left.length + 22 + 6 * B + if inside = .idle then 1 else 0
  | .call k => k.rank B
  | .inside k place => accesses B l k place + k.rest B
  | .outside | .returned _ | .todo => 0

variable {B : Nat} {l l' : List Addr} {a : Addr} {cur : Option Addr}

theorem behind_eq {pre suf : List Addr} (hnd : (pre ++ suf).Nodup) (h : suf.head? = cur) :
    behind (pre ++ suf) cur = suf.length := by
  cases suf with
  | nil =>
    obtain rfl : none = cur := h
    rfl
  | cons b suf =>
    obtain rfl : some b = cur := h
    have hpre : ∀ d ∈ pre, d ≠ b := fun d hd =>
      (List.nodup_append.mp hnd).2.2 d hd b (List.mem_cons_self ..)
    rw [behind, List.dropWhile_append_of_pos fun d hd => decide_eq_true (hpre d hd),
      List.dropWhile_cons_of_neg (by simp)]

theorem behind_le (l : List Addr) (cur : Option Addr) : behind l cur ≤ l.length := by
  cases cur with
  | none => exact Nat.zero_le _
  | some cur => exact (List.dropWhile_suffix _).length_le

theorem Leads.behind_suffix (h : Leads l cur a) (hl : l <:+ l') (hnd : l'.Nodup) :
    behind l' cur = behind l cur := by
  obtain ⟨new, rfl⟩ := hl
  obtain ⟨pre, suf, rfl, hcur, -⟩ := h
  have hold : (pre ++ suf).Nodup := (List.nodup_append.mp hnd).2.1
  rw [behind_eq hold hcur, ← List.append_assoc, behind_eq (by rwa [List.append_assoc]) hcur]

theorem Leads.next {m : Memory} {b : Addr} (h : Leads l (some b) a) (hba : b ≠ a)
    (hholds : m.linked.Holds l) : Leads l (m.sock b).nextSock a ∧
      behind l (m.sock b).nextSock < behind l (some b) := by
  obtain ⟨pre, suf, rfl, hcur, ha⟩ := h
  obtain ⟨rest, rfl⟩ := List.head?_eq_some_iff.mp hcur
  have hsplit : pre ++ b :: rest = (pre ++ [b]) ++ rest := by
    rw [List.append_assoc, List.singleton_append]
  have hnext : rest.head? = (m.sock b).nextSock := by
    have hseg := hholds.next_eq
    cases rest with
    | nil => exact Eq.symm hseg
    | cons d rest => exact hseg.1.symm
  refine ⟨⟨pre ++ [b], rest, hsplit, hnext, (List.mem_cons.mp ha).resolve_left (Ne.symm hba)⟩, ?_⟩
  rw [behind_eq hholds.nodup hcur, hsplit, behind_eq (hsplit ▸ hholds.nodup) hnext]
  exact Nat.lt_succ_self _

theorem Place.rank_eq {m : Memory} {c : Sender} (P : Place m l c) (hl : l <:+ l') (hnd : l'.Nodup)
    (inside : Registry.Pc String) : c.pc.rank B l' inside = c.pc.rank B l inside := by
  cases hpc : c.pc with
  | inside k place =>
    have hsame : accesses B l' k place = accesses B l k place := by
      cases P with
      | bare hserv hbare =>
        rw [hpc] at hbare
        exact hbare.elim
      | making place' hserv hpc' hmade =>
        obtain ⟨-, rfl⟩ := Pc.inside.inj (hpc.symm.trans hpc')
        cases place with
        | sockNo | next => exact hmade.elim
        | _ => rfl
      | owner a hown hheld hlooks =>
        have hlook := hlooks k place hpc
        cases place with
        | sockNo w cur => rw [accesses, accesses, hlook.2.behind_suffix hl hnd]
        | next w cur => rw [accesses, accesses, hlook.2.1.behind_suffix hl hnd]
        | _ => rfl
    rw [Pc.rank, Pc.rank, hsame]
  | _ => rfl

theorem Looks.ne_socket {k : Call} {place : At} (h : Looks l a k place) : k ≠ .socket := by
  rintro rfl
  cases place with
  | first w => cases h
  | sockNo w cur => cases h.1
  | next w cur => cases h.1
  | type w b => cases h.1
  | setBind b => cases h.1
  | copy b => cases h.1
  | setListen b => cases h.1
  | _ => exact h

theorem Looks.rank_le {k : Call} {place : At} (h : Looks l a k place) (hl : l.length ≤ B) :
    accesses B l k place + k.rest B ≤ 12 + 6 * B := by
  have hk := h.ne_socket
  have hbehind := fun cur => Nat.le_trans (behind_le l cur) hl
  cases place with
  | sockNo w cur =>
    have hcur := hbehind cur
    cases k with
    | socket => exact absurd rfl hk
    | _ =>
      simp only [accesses, Call.rest, Call.writes]
      omega
  | next w cur =>
    have hcur := hbehind (some cur)
    cases k with
    | socket => exact absurd rfl hk
    | _ =>
      simp only [accesses, Call.rest, Call.writes]
      omega
  | first | type | setBind | copy | setListen =>
    cases k with
    | socket => exact absurd rfl hk
    | _ =>
      simp only [accesses, Call.rest, Call.writes]
      omega
  | _ => exact h.elim

theorem Place.rank_le {m : Memory} {c : Sender} (P : Place m l c) (hl : l.length ≤ B)
    (inside : Registry.Pc String) (hfind : ∀ left, c.pc = .find left → left.length ≤ 7) :
    c.pc.rank B l inside ≤ 38 + 6 * B := by
  cases hpc : c.pc with
  | find left =>
    have hleft := hfind left hpc
    rw [Pc.rank]
    split <;> omega
  | call k => cases k <;> simp only [Pc.rank, Call.rank] <;> omega
  | inside k place =>
    rw [Pc.rank]
    cases P with
    | bare hserv hbare =>
      rw [hpc] at hbare
      exact hbare.elim
    | making place' hserv hpc' hmade =>
      obtain ⟨rfl, rfl⟩ := Pc.inside.inj (hpc.symm.trans hpc')
      cases place with
      | first | sockNo | next | type | setBind | copy | setListen => exact hmade.elim
      | _ =>
        simp only [accesses, Call.rest]
        omega
    | owner a hown hheld hlooks =>
      have hrank := (hlooks k place hpc).rank_le hl
      omega
  | _ =>
    simp only [Pc.rank]
    omega

end Ranks

end Subcontexts.Send
