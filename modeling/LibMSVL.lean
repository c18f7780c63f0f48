import LibMSVL.DynArray.Extract
import LibMSVL.DynArray.Limit
import LibMSVL.DynArray.OutOfRange
import LibMSVL.DynArray.SelfInsert
import LibMSVL.DynArray.Sorted
import LibMSVL.DynArray.Amortised
import LibMSVL.DynArray.Observe
import LibMSVL.HashMap.Destroy
import LibMSVL.Turn.Sequential
import LibMSVL.Turn.Progress
import LibMSVL.Turn.Port
import LibMSVL.Prsnt.Drain
import LibMSVL.Prsnt.Push
import LibMSVL.Port.Destroy
import LibMSVL.Port.Scan
import LibMSVL.Port.Keep
import LibMSVL.Port.Insert
import LibMSVL.Port.Convert
import LibMSVL.Port.Project
import LibMSVL.Function.Code
import LibMSVL.Function.Comp
import LibMSVL.Function.InsertChild
import LibMSVL.Function.AndHistory
import LibMSVL.Function.PalHistory
import LibMSVL.Function.Project
import LibMSVL.Function.Agree
import LibMSVL.Function.Turns
import LibMSVL.Function.HasExtQ
import LibMSVL.Function.Update
import LibMSVL.Function.Rounds
import LibMSVL.Function.ParRun
import LibMSVL.Function.Keep
