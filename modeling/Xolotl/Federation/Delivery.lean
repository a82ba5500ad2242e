import Xolotl.Federation.Idempotence
import Xolotl.Federation.Inbox

/-! Delivery to a subscriber through a network that loses, delays, repeats and reorders records. -/

namespace Xolotl.Federation

open List Sample

/-- An inbox that accepted only records of one stream has a stretch of it, from its start on, each
once and in order. -/
theorem inbox_follows_stream (sha384 : Hash) (publisher subscriber : FederationNodeId)
    (limit limit' : Nat) (calls received : List Call) (stream : StreamRef) (ref : SubscriptionRef)
    (row : ReceivedSubscription)
    (hrow : (run sha384 subscriber (.new limit') received).receivedSubscriptions.get ref =
      some row) :
    let sent :=
      (publications stream (log sha384 publisher (.new limit) calls)).map Publication.record
    let items := acceptedInto ref (log sha384 subscriber (.new limit') received)
    items ⊆ sent → ∀ i < items.length, items[i]? = sent[row.start + i]? := by
  intro sent items hsent i hi
  obtain ⟨_, hc⟩ := (inboxes_run limit' received).copied ref row hrow
  obtain ⟨_, hl⟩ := (published_run limit calls).ledger stream
  have hn := hc.numbered.getElem? (getElem?_eq_getElem hi)
  have hf := (hl.retained.numbered.mem_iff.mp (hsent (getElem_mem hi))).2
  have hx : row.start + 1 + i - (0 + 1) = row.start + i := by omega
  rw [hn, hx] at hf
  rw [getElem?_eq_getElem hi, ← hf]

namespace Sample

def copy : SubscriptionRef := ⟨publisher, ⟨fixed 16 5⟩⟩

def copying : List Call :=
  [own (.setPeerAuthority here none true),
    own (.setExportAuthority here exportName none ⟨false, true⟩),
    own (.installSubscription ⟨here, ⟨⟨fixed 16 1⟩, copy, stream, exportName, ⟨1, 1⟩, 1, none⟩⟩)] ++
  (postedItems.reverse ++ postedItems).map fun item => own (.accept ⟨here, copy, item.record⟩)

def copied : List Record := acceptedInto copy (log checksum publisher (.new 0) copying)

end Sample

theorem inbox_follows_stream_posted : copied.length = 2 ∧
    ∀ i < copied.length, copied[i]? = (postedItems.map Publication.record)[i]? := by
  obtain ⟨row, hrow, hstart⟩ := Option.map_eq_some_iff.mp (by decide +kernel :
    ((run checksum publisher (.new 0) copying).receivedSubscriptions.get copy).map
      ReceivedSubscription.start = some 0)
  have hsent := inbox_follows_stream checksum here publisher 4 0 posting copying stream
    copy row hrow
    (by decide +kernel)
  simp only [hstart, Nat.zero_add] at hsent
  exact ⟨by decide +kernel, hsent⟩

end Xolotl.Federation
