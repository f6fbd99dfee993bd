import Mathlib.Data.Finset.Card
import Mathlib.Data.List.Sort
import Mathlib.Order.Interval.Finset.Nat
import Mathlib.Tactic

/-!
# The hosts file

`Parser::hosts` of `parser.hpp` and `HostsTable` of `io/transport/hosts.hpp`. The parser infers that
the ids are compact from their minimum, their maximum and their number, which a file with an id
given twice may pass. The table keeps ids of 8 bits, but compares the full id with the local one.

An `unsigned long` is a natural number here: the reader bounds it. `ipOf` is the address that the
constructor of `Host` finds for a name, an error when it cannot be resolved.
-/

namespace BroadcastService.Membership

abbrev Line := List Char
abbrev PeerID := UInt8

structure Host where
  id : ℕ
  ip : UInt32
  port : UInt16
  deriving DecidableEq

inductive ParserError
  | doesNotExist
  | parsingFailed (lineNum : ℕ)
  | unresolved (what : String)
  | fewHosts
  | notCompact
  deriving DecidableEq

def ParserError.what (hostsPath : String) : ParserError → String
  | .doesNotExist => "`" ++ hostsPath ++ "` does not exist."
  | .parsingFailed lineNum =>
      "Parsing for `" ++ hostsPath ++ "` failed at line " ++ toString lineNum
  | .unresolved what => what
  | .fewHosts => "`" ++ hostsPath ++ "` must contain at least two hosts"
  | .notCompact =>
      "In `" ++ hostsPath ++ "` IDs of processes have to start from 1 and be compact"

def isSpace (c : Char) : Bool := c ∈ [' ', '\t', '\n', '\x0b', '\x0c', '\r']

def trim (line : Line) : Line :=
  ((line.dropWhile isSpace).reverse.dropWhile isSpace).reverse

def digitsValue (digits : List Char) : ℕ :=
  digits.foldl (fun value digit => 10 * value + (digit.toNat - '0'.toNat)) 0

/-- `operator>>` of a stream for an unsigned type of the given width. A minus sign is accepted and
negates the value modulo the width; a value that does not fit fails. -/
def extractUnsigned (width : ℕ) (chars : Line) : Option (ℕ × Line) :=
  let chars := chars.dropWhile isSpace
  let (negative, chars) := match chars with
    | '-' :: rest => (true, rest)
    | '+' :: rest => (false, rest)
    | _ => (false, chars)
  let digits := chars.takeWhile Char.isDigit
  let value := digitsValue digits
  if digits.isEmpty || 2 ^ width ≤ value then none
  else some (if negative then (2 ^ width - value) % 2 ^ width else value,
    chars.dropWhile Char.isDigit)

/-- `operator>>` of a stream for a string. -/
def extractWord (chars : Line) : Option (Line × Line) :=
  let chars := chars.dropWhile isSpace
  let word := chars.takeWhile fun c => !isSpace c
  if word.isEmpty then none else some (word, chars.dropWhile fun c => !isSpace c)

def htons (port : UInt16) : UInt16 := port <<< 8 ||| port >>> 8

variable (ipOf : Line → Except String UInt32)

def parseLine (lineNum : ℕ) (line : Line) : Except ParserError Host :=
  match extractUnsigned 64 line with
  | none => .error (.parsingFailed lineNum)
  | some (id, rest) =>
      match extractWord rest with
      | none => .error (.parsingFailed lineNum)
      | some (ip, rest) =>
          match extractUnsigned 16 rest with
          | none => .error (.parsingFailed lineNum)
          | some (port, _) =>
              match ipOf ip with
              | .error what => .error (.unresolved what)
              | .ok ip => .ok ⟨id, ip, htons (UInt16.ofNat port)⟩

def readHosts : (lineNum : ℕ) → List Line → Except ParserError (List Host)
  | _, [] => .ok []
  | lineNum, line :: lines =>
      if (trim line).isEmpty then readHosts (lineNum + 1) lines
      else
        match parseLine ipOf (lineNum + 1) line with
        | .error error => .error error
        | .ok host =>
            match readHosts (lineNum + 1) lines with
            | .error error => .error error
            | .ok hosts => .ok (host :: hosts)

def minID (hosts : List Host) : ℕ := (hosts.map Host.id).min?.getD 0

def maxID (hosts : List Host) : ℕ := (hosts.map Host.id).max?.getD 0

def hosts (file : Option (List Line)) : Except ParserError (List Host) :=
  match file with
  | none => .error .doesNotExist
  | some lines =>
      match readHosts ipOf 0 lines with
      | .error error => .error error
      | .ok hosts =>
          if hosts.length < 2 then .error .fewHosts
          else if minID hosts ≠ 1 ∨ maxID hosts ≠ hosts.length then .error .notCompact
          else .ok (hosts.insertionSort fun a b => a.id ≤ b.id)

structure HostsTable where
  hostsList : List Host
  localID : PeerID
  peers : List PeerID

namespace HostsTable

/-- The constructor. An id is narrowed when it is stored, but not for the comparison. -/
def make (hostsList : List Host) (localID : PeerID) : HostsTable where
  hostsList := hostsList
  localID := localID
  peers := (hostsList.filter fun host => host.id ≠ localID.toNat).map fun host =>
    UInt8.ofNat host.id

def getPeers (table : HostsTable) : List PeerID := table.peers

def getNetworkSize (table : HostsTable) (withMe : Bool) : ℕ :=
  if withMe then table.peers.length + 1 else table.peers.length

end HostsTable

def processes (hosts : List Host) : Finset ℕ := (hosts.map Host.id).toFinset

/-- The table of the process `localId` has one distinct peer for each other process, and its size
is the number of processes, whose ids are `1, …, n`. So two sets of processes that are large enough
to deliver or to decide have a common member. -/
structure Consistent (hosts : List Host) (localId : ℕ) (table : HostsTable) : Prop where
  distinct : table.getPeers.Nodup
  local_notMem : table.localID ∉ table.getPeers
  peers_eq : (table.getPeers : Multiset PeerID) =
    ((processes hosts).erase localId).val.map UInt8.ofNat
  networkSize_eq : table.getNetworkSize true = (processes hosts).card
  processes_eq : processes hosts = Finset.Icc 1 (processes hosts).card
  quorums_intersect : ∀ Q ⊆ processes hosts, ∀ C ⊆ processes hosts,
    table.getNetworkSize true / 2 < Q.card → table.getNetworkSize true / 2 < C.card →
    (Q ∩ C).Nonempty

def lineIds (lines : List Line) : List ℕ :=
  (lines.filter fun line => !(trim line).isEmpty).filterMap fun line =>
    (extractUnsigned 64 line).map Prod.fst

variable {ipOf}

theorem id_of_parseLine {lineNum : ℕ} {line : Line} {host : Host}
    (h : parseLine ipOf lineNum line = .ok host) :
    (extractUnsigned 64 line).map Prod.fst = some host.id := by
  rw [parseLine] at h
  split at h
  · cases h
  · next id rest hid =>
      rw [hid]
      split at h
      · cases h
      · split at h
        · cases h
        · split at h
          · cases h
          · obtain rfl := Except.ok.inj h
            rfl

theorem ids_of_readHosts {lineNum : ℕ} {lines : List Line} {hosts : List Host}
    (h : readHosts ipOf lineNum lines = .ok hosts) : hosts.map Host.id = lineIds lines := by
  induction lines generalizing lineNum hosts with
  | nil =>
      obtain rfl := Except.ok.inj h
      rfl
  | cons line lines ih =>
      rw [readHosts] at h
      split_ifs at h with hempty
      · rw [ih h, lineIds, lineIds, List.filter_cons_of_neg (by simpa using hempty)]
      · split at h
        · cases h
        · next host hhost =>
            split at h
            · cases h
            · next rest hrest =>
                obtain rfl := Except.ok.inj h
                rw [lineIds, List.filter_cons_of_pos (by simpa using hempty), List.filterMap_cons,
                  id_of_parseLine hhost, List.map_cons, ih hrest]
                rfl

/-- What the check of the minimum and the maximum says of the ids. -/
structure Compact (ids : List ℕ) : Prop where
  one_mem : 1 ∈ ids
  length_mem : ids.length ∈ ids
  one_le : ∀ id ∈ ids, 1 ≤ id
  le_length : ∀ id ∈ ids, id ≤ ids.length

theorem Compact.perm {ids ids' : List ℕ} (h : Compact ids) (hperm : ids'.Perm ids) :
    Compact ids' where
  one_mem := hperm.mem_iff.2 h.one_mem
  length_mem := by
    rw [hperm.length_eq]
    exact hperm.mem_iff.2 h.length_mem
  one_le id hid := h.one_le id (hperm.mem_iff.1 hid)
  le_length id hid := by
    rw [hperm.length_eq]
    exact h.le_length id (hperm.mem_iff.1 hid)

theorem compact_of_min_max {ids : List ℕ} (hmin : ids.min?.getD 0 = 1)
    (hmax : ids.max?.getD 0 = ids.length) : Compact ids := by
  cases hids : ids with
  | nil =>
      rw [hids] at hmin
      cases hmin
  | cons id rest =>
      have hne : ids ≠ [] := by
        rw [hids]
        exact List.cons_ne_nil id rest
      obtain ⟨low, hlow⟩ := Option.ne_none_iff_exists'.1 (mt List.min?_eq_none_iff.1 hne)
      obtain ⟨high, hhigh⟩ := Option.ne_none_iff_exists'.1 (mt List.max?_eq_none_iff.1 hne)
      rw [hlow, Option.getD_some] at hmin
      rw [hhigh, Option.getD_some] at hmax
      subst hmin hmax
      obtain ⟨hlowmem, hlowle⟩ := List.min?_eq_some_iff.1 hlow
      obtain ⟨hhighmem, hhighle⟩ := List.max?_eq_some_iff.1 hhigh
      rw [← hids]
      exact ⟨hlowmem, hhighmem, hlowle, hhighle⟩

theorem hosts_eq_ok {lines : List Line} {list : List Host}
    (h : hosts ipOf (some lines) = .ok list) :
    (list.map Host.id).Perm (lineIds lines) ∧ Compact (list.map Host.id) := by
  rw [hosts] at h
  split at h
  · cases h
  · next read hread =>
      split_ifs at h with hfew hids
      obtain rfl := Except.ok.inj h
      obtain ⟨hmin, hmax⟩ := not_or.1 hids
      have hperm := (List.perm_insertionSort (fun a b : Host => a.id ≤ b.id) read).map Host.id
      have hcompact : Compact (read.map Host.id) := by
        apply compact_of_min_max (not_not.1 hmin)
        rw [List.length_map]
        exact not_not.1 hmax
      rw [← ids_of_readHosts hread]
      exact ⟨hperm, hcompact.perm hperm⟩

variable {list : List Host} {localId : ℕ}

theorem peers_make (list : List Host) (localID : PeerID) :
    (HostsTable.make list localID).getPeers =
      ((list.map Host.id).filter fun id => id ≠ localID.toNat).map UInt8.ofNat := by
  rw [List.filter_map, List.map_map]
  rfl

theorem card_processes_le (list : List Host) : (processes list).card ≤ list.length := by
  have := List.toFinset_card_le (list.map Host.id)
  rwa [List.length_map] at this

/-- The largest id is the number of hosts, so compact ids are distinct. -/
theorem nodup_of_processes_eq (hcompact : Compact (list.map Host.id))
    (h : processes list = Finset.Icc 1 (processes list).card) : (list.map Host.id).Nodup := by
  have hlast : (list.map Host.id).length ∈ processes list :=
    List.mem_toFinset.2 hcompact.length_mem
  rw [List.length_map, h, Finset.mem_Icc] at hlast
  have hcard : (processes list).card = (list.map Host.id).length := by
    rw [List.length_map]
    exact le_antisymm (card_processes_le list) hlast.2
  exact Multiset.coe_nodup.1 (Multiset.toFinset_card_eq_card_iff_nodup.1 hcard)

theorem length_le_of_nodup_peers {peers : List PeerID} (h : peers.Nodup) : peers.length ≤ 256 := by
  have hnodup := h.map fun _ _ => UInt8.toNat_inj.1
  have hsub : peers.map UInt8.toNat ⊆ List.range 256 := by
    intro id hid
    obtain ⟨peer, -, rfl⟩ := List.mem_map.1 hid
    exact List.mem_range.2 peer.toNat_lt
  have hlength := (hnodup.subperm hsub).length_le
  rwa [List.length_map, List.length_range] at hlength

/-- A table whose peers are distinct from each other and from the local id has room for 256
processes. The last of them has an id that is narrowed to zero, and finds itself among its peers. -/
theorem bounds_of_consistent (hcompact : Compact (list.map Host.id))
    (hlocal : localId ∈ list.map Host.id)
    (h : Consistent list localId (HostsTable.make list (UInt8.ofNat localId))) :
    list.length ≤ 256 ∧ localId ≤ 255 := by
  have hnodup := nodup_of_processes_eq hcompact h.processes_eq
  have hcard : (processes list).card = list.length := by
    rw [processes, List.toFinset_card_of_nodup hnodup, List.length_map]
  have hsize := h.networkSize_eq
  rw [HostsTable.getNetworkSize, if_pos rfl, hcard] at hsize
  have hpeers := length_le_of_nodup_peers (List.nodup_cons.2 ⟨h.local_notMem, h.distinct⟩)
  rw [List.length_cons] at hpeers
  have hlength : list.length ≤ 256 := hsize.symm.le.trans hpeers
  refine ⟨hlength, ?_⟩
  have hone := hcompact.one_le localId hlocal
  have hle := hcompact.le_length localId hlocal
  rw [List.length_map] at hle
  by_contra hlarge
  have hlast : localId = 256 := by omega
  have hkept : (list.map Host.id).filter (fun id => id ≠ (UInt8.ofNat localId).toNat) =
      list.map Host.id := by
    apply List.filter_eq_self.2
    intro id hid
    have hpos := hcompact.one_le id hid
    have hzero : (UInt8.ofNat localId).toNat = 0 := by rw [hlast]; rfl
    rw [hzero]
    simpa using (by omega : id ≠ 0)
  have hall := congrArg List.length (peers_make list (UInt8.ofNat localId))
  rw [hkept, List.length_map, List.length_map] at hall
  exact absurd (hsize.symm.trans (congrArg (· + 1) hall)) (by omega)

theorem ofNat_inj_of_le {a b : ℕ} (ha : 1 ≤ a ∧ a ≤ 256) (hb : 1 ≤ b ∧ b ≤ 256)
    (h : UInt8.ofNat a = UInt8.ofNat b) : a = b := by
  have hmod := congrArg UInt8.toNat h
  rw [UInt8.toNat_ofNat', UInt8.toNat_ofNat'] at hmod
  omega

theorem consistent_of_nodup (hcompact : Compact (list.map Host.id))
    (hlocal : localId ∈ list.map Host.id) (hnodup : (list.map Host.id).Nodup)
    (hlength : list.length ≤ 256) (hlocalId : localId ≤ 255) :
    Consistent list localId (HostsTable.make list (UInt8.ofNat localId)) := by
  have hrange : ∀ id ∈ list.map Host.id, 1 ≤ id ∧ id ≤ 256 := by
    intro id hid
    have hle := hcompact.le_length id hid
    rw [List.length_map] at hle
    exact ⟨hcompact.one_le id hid, hle.trans hlength⟩
  have hcard : (processes list).card = list.length := by
    rw [processes, List.toFinset_card_of_nodup hnodup, List.length_map]
  have hpeers : (HostsTable.make list (UInt8.ofNat localId)).getPeers =
      ((list.map Host.id).erase localId).map UInt8.ofNat := by
    have hid : (UInt8.ofNat localId).toNat = localId :=
      UInt8.toNat_ofNat_of_lt' (by rw [UInt8.size]; omega)
    rw [peers_make, hid, hnodup.erase_eq_filter]
    congr 2
    funext id
    by_cases hsame : id = localId
    · simp [hsame]
    · simp [hsame]
  have hothers : ∀ id ∈ (list.map Host.id).erase localId, 1 ≤ id ∧ id ≤ 256 := by
    intro id hid
    exact hrange id (List.mem_of_mem_erase hid)
  have hsize : (HostsTable.make list (UInt8.ofNat localId)).getNetworkSize true =
      (processes list).card := by
    have hpos := List.length_pos_of_mem hlocal
    have hother := congrArg List.length hpeers
    rw [List.length_map, List.length_erase_of_mem hlocal] at hother
    rw [List.length_map] at hpos hother
    rw [hcard]
    change (HostsTable.make list (UInt8.ofNat localId)).getPeers.length + 1 = list.length
    omega
  refine ⟨?_, ?_, ?_, hsize, ?_, ?_⟩
  · rw [hpeers]
    exact (hnodup.erase localId).map_on
      fun a ha b hb => ofNat_inj_of_le (hothers a ha) (hothers b hb)
  · rw [hpeers]
    intro hmem
    obtain ⟨id, hid, heq⟩ := List.mem_map.1 hmem
    have hsame := ofNat_inj_of_le (hothers id hid) (hrange localId hlocal) heq
    rw [hsame] at hid
    exact hnodup.not_mem_erase hid
  · rw [hpeers, Finset.erase_val, processes, List.toFinset_val, hnodup.dedup, Multiset.coe_erase,
      Multiset.map_coe]
  · apply Finset.eq_of_subset_of_card_le
    · intro id hid
      have hmem := List.mem_toFinset.1 hid
      have hle := hcompact.le_length id hmem
      rw [List.length_map] at hle
      rw [Finset.mem_Icc, hcard]
      exact ⟨hcompact.one_le id hmem, hle⟩
    · rw [Nat.card_Icc, Nat.add_sub_cancel]
  · intro Q hQ C hC hQcard hCcard
    apply Finset.inter_nonempty_of_card_lt_card_add_card hQ hC
    rw [hsize] at hQcard hCcard
    omega

/-- The membership of an accepted file is consistent exactly if no id is given twice and the ids,
that of the process itself included, can be told apart after narrowing. -/
theorem accepted_consistent_iff {lines : List Line} (h : hosts ipOf (some lines) = .ok list)
    (hlocal : localId ∈ list.map Host.id) :
    Consistent list localId (HostsTable.make list (UInt8.ofNat localId)) ↔
      (lineIds lines).Nodup ∧ (lineIds lines).length ≤ 256 ∧ localId ≤ 255 := by
  obtain ⟨hperm, hcompact⟩ := hosts_eq_ok h
  have hlength := hperm.length_eq
  rw [List.length_map] at hlength
  rw [← hperm.nodup_iff, ← hlength]
  constructor
  · intro hconsistent
    exact ⟨nodup_of_processes_eq hcompact hconsistent.processes_eq,
      bounds_of_consistent hcompact hlocal hconsistent⟩
  · rintro ⟨hnodup, hle, hlocalId⟩
    exact consistent_of_nodup hcompact hlocal hnodup hle hlocalId

/-- Three lines with the ids `1, 1, 3` pass the check. Process `3` then counts the first process
twice among its peers. -/
theorem duplicate_id_accepted :
    ∃ list : List Host,
      hosts (fun _ => .ok 0) (some [['1', ' ', 'a', ' ', '1'], ['1', ' ', 'a', ' ', '2'],
        ['3', ' ', 'a', ' ', '3']]) = .ok list ∧
      3 ∈ list.map Host.id ∧
      (HostsTable.make list 3).getPeers = [1, 1] ∧
      ¬Consistent list 3 (HostsTable.make list 3) := by
  refine ⟨[⟨1, 0, 256⟩, ⟨1, 0, 512⟩, ⟨3, 0, 768⟩], rfl, by decide, by decide, ?_⟩
  intro h
  exact absurd h.distinct (by decide)

theorem accepted_consistent_two :
    Consistent [⟨1, 0, 256⟩, ⟨2, 0, 512⟩] 1 (HostsTable.make [⟨1, 0, 256⟩, ⟨2, 0, 512⟩] 1) := by
  have h : hosts (fun _ => .ok 0) (some [['1', ' ', 'a', ' ', '1'], ['2', ' ', 'a', ' ', '2']]) =
      .ok [⟨1, 0, 256⟩, ⟨2, 0, 512⟩] := rfl
  exact (accepted_consistent_iff h (by decide)).2 (by decide)

end BroadcastService.Membership
