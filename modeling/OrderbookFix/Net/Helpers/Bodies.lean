import OrderbookFix.Fix.Helpers.Evolution
import OrderbookFix.Net.Model.Reports
/-!
# Bodies of reports

A report has one of four lists of tags, none of them with a field of the
header, so it is an ordinary message of the session that sends it.
-/

namespace OrderbookFix

namespace Net

open OrderbookFix.Core OrderbookFix.Fix

/-- The tags of reports: of a trade, an ack, a reject and a cancel. -/
def reportTags : List (List Int) :=
  [[Tag.orderID, Tag.clOrdID, Tag.execID, Tag.execType, Tag.ordStatus, Tag.lastQty, Tag.lastPx],
    [Tag.orderID, Tag.clOrdID, Tag.execID, Tag.execType, Tag.ordStatus, Tag.leavesQty, Tag.cumQty,
      Tag.avgPx],
    [Tag.clOrdID, Tag.execType, Tag.ordStatus, Tag.text],
    [Tag.clOrdID, Tag.origClOrdID, Tag.execType, Tag.ordStatus]]

section Bodies

variable {ev : Event} {body : Body}

theorem map_fst_report (h : report ev = some body) : body.map Prod.fst ∈ reportTags := by
  rcases ev with t | a | r | c | r
  · obtain rfl := Option.some.inj h
    exact List.mem_cons_self ..
  · obtain rfl := Option.some.inj h
    exact .tail _ (List.mem_cons_self ..)
  · obtain rfl := Option.some.inj h
    exact .tail _ (.tail _ (List.mem_cons_self ..))
  · obtain rfl := Option.some.inj h
    exact .tail _ (.tail _ (.tail _ (List.mem_cons_self ..)))
  · cases h

/-- A report has no field of the header. -/
theorem report_tags (h : report ev = some body) : PlainTags (body.map Prod.fst) :=
  (by decide : ∀ tags ∈ reportTags, PlainTags tags) _ (map_fst_report h)

/-- The report of an event whose texts are free of the separator is an
ordinary message. -/
theorem report_plain {soh : Soh} (h : report ev = some body)
    (htext : ∀ v ∈ reported ev, soh.byte ∉ v) :
    Plain soh.byte ((Tag.msgType, MsgType.executionReport) :: body) := by
  refine ⟨_, _, rfl, report_tags h, ?_⟩
  have hlit : ∀ v ∈ [MsgType.executionReport, ascii "0", ascii "1", ascii "4", ascii "8",
      ascii "F", ascii "-A", ascii "-T"], soh.byte ∉ v := by
    cases soh <;> decide
  have hnil : ∀ v ∈ ([] : List Bytes), soh.byte ∉ v := fun _ h => by cases h
  simp only [List.forall_mem_cons] at hlit
  obtain ⟨h8, hzero, hone, hfour, height, hF, hA, hT, -⟩ := hlit
  have hdec : ∀ n : OrderId, soh.byte ∉ dec n := Session.notMem_dec
  rcases ev with t | a | r | c | r
  · obtain rfl := Option.some.inj h
    simp only [reported, List.forall_mem_cons] at htext
    simp only [execReportForTrade, List.map_cons, List.map_nil, List.forall_mem_cons, if_true]
    exact ⟨h8, hdec _, htext.1, List.not_mem_append (List.not_mem_append (hdec _) hT) (hdec _), hF,
      hone, hdec _, Session.notMem_decimalInt _, hnil⟩
  · obtain rfl := Option.some.inj h
    simp only [reported, List.forall_mem_cons] at htext
    simp only [execReportForAck, List.map_cons, List.map_nil, List.forall_mem_cons]
    exact ⟨h8, hdec _, htext.1, List.not_mem_append (hdec _) hA, hzero, hzero, hzero, hzero, hzero,
      hnil⟩
  · obtain rfl := Option.some.inj h
    simp only [reported, List.forall_mem_cons] at htext
    simp only [List.map_cons, List.map_nil, List.forall_mem_cons]
    exact ⟨h8, htext.1, height, height, htext.2.1, hnil⟩
  · obtain rfl := Option.some.inj h
    simp only [reported, List.forall_mem_cons] at htext
    simp only [List.map_cons, List.map_nil, List.forall_mem_cons]
    exact ⟨h8, htext.1, htext.2.1, hfour, hfour, hnil⟩
  · cases h

end Bodies

end Net

end OrderbookFix
