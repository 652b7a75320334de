import TpccBench.BTree.Height
import TpccBench.Keys
import TpccBench.Rows
import TpccBench.Tables.Agreement
import TpccBench.Tables.Destructor
import TpccBench.Tables.Lifetime
import TpccBench.Tables.OwnDelivery
import TpccBench.Tables.ByName
import TpccBench.Tables.Queries
import TpccBench.Db.Buffer
import TpccBench.Db.CreditHistory
import TpccBench.Db.History
import TpccBench.Db.StockBooks
import TpccBench.Db.StockLevels
import TpccBench.Db.Total
import TpccBench.Db.Refusal
import TpccBench.Db.SplitPayment
import TpccBench.Db.Distributed
import TpccBench.Db.Partition
import TpccBench.Db.Aborts
import TpccBench.Db.Gathering
import TpccBench.Db.Permanent
import TpccBench.Load.DistrictText
import TpccBench.Load.Ends
import TpccBench.Load.Money
import TpccBench.Load.OrderStatus
import TpccBench.Load.Permutation
import TpccBench.Load.References
import TpccBench.Load.Tenth
import TpccBench.Load.Waiting
import TpccBench.Load.Window
import TpccBench.Client.Audit
import TpccBench.Client.Deployment
import TpccBench.Client.Session
import TpccBench.Client.Terminals
import TpccBench.Program.Main
import TpccBench.Program.RealRandom
