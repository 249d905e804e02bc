import WindLtask.Manager.Grants
import WindLtask.Worker.Request
import WindLtask.System.Serial
import WindLtask.Cell.Saving
import WindLtask.Cell.Sync
import WindLtask.Cell.Mirror
import WindLtask.Gate.Delivery
import WindLtask.Gate.Survival
import WindLtask.Manager.Effects
import WindLtask.Manager.Queue
import WindLtask.Worker.Commit
import WindLtask.Worker.Packing
import WindLtask.Worker.Transaction
import WindLtask.Worker.Raising
import WindLtask.Gate.Handshake
import WindLtask.Gate.Reassembly
import WindLtask.Manager.Census
import WindLtask.Manager.Unlocking
import WindLtask.Manager.Overtaking
import WindLtask.Gate.Authentication
import WindLtask.Gate.Edge
import WindLtask.System.Accepts
import WindLtask.Runtime.Ticking
import WindLtask.Runtime.Streams
import WindLtask.Runtime.Posting
import WindLtask.Runtime.Hanging
